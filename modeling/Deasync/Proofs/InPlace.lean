import Deasync.CommandLine.Session
import Deasync.Proofs.UnitExpansion

namespace Deasync

namespace Directory

-- The file that a name leads to.
def file? (d : Directory) (name : FileName) : Option (List String) :=
  match d.resolveName name with
  | .ok (.file parts) => some parts
  | _ => none

def names (d : Directory) : List (List String) := d.files.map Prod.fst

theorem contents?_isSome (d : Directory) (parts : List String) :
    (d.contents? parts).isSome = d.names.contains parts := by
  unfold contents? names
  induction d.files with
  | nil => rfl
  | cons file rest ih =>
    obtain ⟨name, text⟩ := file
    rw [List.lookup_cons, List.map_cons, List.contains_cons, ← ih]
    cases parts == name <;> rfl

-- Two states of the same folders and files, which differ in the texts of the files alone.
structure SameTree (d' d : Directory) : Prop where
  working : d'.working = d.working
  folders : d'.folders = d.folders
  names : d'.names = d.names

theorem SameTree.refl (d : Directory) : SameTree d d := ⟨rfl, rfl, rfl⟩

theorem SameTree.trans {d d' d'' : Directory} (later : SameTree d'' d') (first : SameTree d' d) :
    SameTree d'' d :=
  ⟨later.working.trans first.working, later.folders.trans first.folders, later.names.trans first.names⟩

theorem SameTree.known {d d' : Directory} (same : SameTree d' d) (parts : List String) :
    (d'.contents? parts).isSome = (d.contents? parts).isSome := by
  rw [contents?_isSome, contents?_isSome, same.names]

theorem SameTree.isDirectory {d d' : Directory} (same : SameTree d' d) (parts : List String) :
    d'.isDirectory parts = d.isDirectory parts := by
  have named (e : Directory) : e.isDirectory parts = (parts.isPrefixOf e.working ||
      e.folders.any (fun folder => parts.isPrefixOf folder) ||
        e.names.any fun other => parts.isPrefixOf other && other ≠ parts) := by
    rw [Directory.names, List.any_map]
    rfl
  rw [named, named, same.working, same.folders, same.names]

-- Where a name leads does not depend on the texts.
theorem SameTree.resolve {d d' : Directory} (same : SameTree d' d) (above parts : List String) :
    d'.resolve above parts = d.resolve above parts := by
  induction parts generalizing above with
  | nil => rfl
  | cons part rest ih => simp only [Directory.resolve, same.known, same.isDirectory, ih]

theorem SameTree.resolveName {d d' : Directory} (same : SameTree d' d) (name : FileName) :
    d'.resolveName name = d.resolveName name := by
  rw [Directory.resolveName, Directory.resolveName, same.working, same.resolve]

theorem SameTree.file? {d d' : Directory} (same : SameTree d' d) (name : FileName) :
    d'.file? name = d.file? name := by
  rw [Directory.file?, Directory.file?, same.resolveName]

theorem read_eq_ok_iff {d : Directory} {name : FileName} {text : String} :
    d.read name = .ok text ↔ ∃ parts, d.file? name = some parts ∧ d.contents? parts = some text := by
  unfold Directory.read file?
  cases d.resolveName name with
  | error failure => simp [bind, Except.bind]
  | ok target =>
    cases target with
    | file parts => cases contents : d.contents? parts <;> simp [bind, Except.bind, contents]
    | directory | vacant parts => simp [bind, Except.bind]

theorem write_file {d : Directory} {name : FileName} {parts : List String} (found : d.file? name = some parts)
    (text : String) : d.write name text = .ok (d.put parts text) := by
  unfold file? at found
  split at found
  · rename_i led
    cases found
    simp [write, led, bind, Except.bind]
  · cases found

theorem sameTree_put {d : Directory} {parts : List String} (known : (d.contents? parts).isSome) (text : String) :
    SameTree (d.put parts text) d := by
  rw [put, if_pos known]
  refine ⟨rfl, rfl, ?_⟩
  rw [names, names, List.map_map]
  refine List.map_congr_left fun file _ => ?_
  dsimp only [Function.comp_apply]
  split <;> rfl

-- Two files can be written in either order.
theorem put_comm {d : Directory} {a b : List String} (one : (d.contents? a).isSome)
    (two : (d.contents? b).isSome) (apart : a ≠ b) (first second : String) :
    (d.put a first).put b second = (d.put b second).put a first := by
  have still {x y : List String} (known : (d.contents? y).isSome) (different : y ≠ x) (text : String) :
      ((d.put x text).contents? y).isSome := by rwa [contents?_put_of_ne _ _ _ _ different]
  rw [put, if_pos (still two apart.symm first), put, if_pos one, put, if_pos (still one apart second),
    put, if_pos two, List.map_map, List.map_map]
  congr 1
  refine List.map_congr_left fun file _ => ?_
  obtain ⟨name, text⟩ := file
  dsimp only [Function.comp_apply]
  by_cases left : name = a
  · subst left
    rw [if_pos rfl, if_neg apart, if_neg apart, if_pos rfl]
  · rw [if_neg left]
    split <;> rfl

end Directory

def unified (contents : String) : String := String.ofList (unifyLines contents.toList)

-- The name of a file has a part in reports only.
theorem expandText_file (text : String) (file : Option String) :
    (expandText text file).text = (expandText text none).text ∧
      (expandText text file).ok = (expandText text none).ok := by
  cases outlined : Outline.ofText text with
  | error fault => simp [expandText, outlined, UnitExpansion.ok]
  | ok o =>
    obtain ⟨here, reported, _⟩ := expandText_ok file outlined
    obtain ⟨there, unnamed, _⟩ := expandText_ok none outlined
    refine ⟨here.trans there.symm, ?_⟩
    rw [UnitExpansion.ok, UnitExpansion.ok, reported, unnamed, Bool.eq_iff_iff, List.isEmpty_iff,
      List.isEmpty_iff, List.filterMap_eq_nil_iff, List.filterMap_eq_nil_iff]
    refine forall₂_congr fun a _ => ?_
    unfold SiteAttempt.diagnostic?
    cases a.outcome <;> simp

-- What a run in place writes for a file with these contents, if it writes anything.
def inPlace? (contents : String) : Option String :=
  let text := (expandText (unified contents) none).text
  if text = unified contents then none else some text

-- What such a file holds in the end.
def inPlaceText (contents : String) : String := (inPlace? contents).getD contents

theorem storage?_inPlace {inv : Invocation} (place : inv.destination = .inPlace) (name : FileName)
    (contents : String) : inv.storage? (.ofContents name contents) =
      (inPlace? contents).map fun text => ⟨some name, text⟩ := by
  have result : SourceResult.ofContents name contents =
      .expanded name (unified contents) (expandText (unified contents) (some name.render)) := rfl
  simp only [result, Invocation.storage?, place, inPlace?,
    (expandText_file (unified contents) (some name.render)).1]
  split <;> rfl

namespace Directory

-- What a run in place writes for a source, and where.
def rewrite? (d : Directory) (name : FileName) : Option (List String × String) :=
  (d.file? name).bind fun parts => (d.contents? parts).bind fun contents =>
    (inPlace? contents).map fun text => (parts, text)

def update (d : Directory) (write : List String × String) : Directory := d.put write.1 write.2

theorem rewrite?_eq_some {d : Directory} {name : FileName} {parts : List String} {text : String} :
    d.rewrite? name = some (parts, text) ↔ d.file? name = some parts ∧
      ∃ contents, d.contents? parts = some contents ∧ inPlace? contents = some text := by
  simp [rewrite?, Option.bind_eq_some_iff]

-- Writing to one file leaves alone what is written for the sources that lead to others.
theorem rewrite?_put {d : Directory} {parts : List String} (known : (d.contents? parts).isSome)
    {name : FileName} (apart : d.file? name ≠ some parts) (text : String) :
    (d.put parts text).rewrite? name = d.rewrite? name := by
  rw [rewrite?, rewrite?, (sameTree_put known text).file?]
  cases found : d.file? name with
  | none => rfl
  | some own =>
    have different : own ≠ parts := fun same => apart (same ▸ found)
    rw [Option.bind_some, Option.bind_some, contents?_put_of_ne _ _ _ _ different]

theorem SameTree.read {d d' : Directory} (same : SameTree d' d) {name : FileName}
    (still : ∀ parts ∈ d.file? name, d'.contents? parts = d.contents? parts) : d'.read name = d.read name := by
  unfold Directory.file? at still
  unfold Directory.read
  rw [same.resolveName]
  cases target : d.resolveName name with
  | error failure => rfl
  | ok target' =>
    cases target' with
    | file parts =>
      rw [target] at still
      simp only [bind, Except.bind, still parts rfl]
    | directory | vacant parts => rfl

end Directory

-- What a source comes to when it is read from this directory.
def Directory.result (d : Directory) (name : FileName) : SourceResult := (Session.start d).result name

theorem Directory.rewrite?_unreadable {d : Directory} {name : FileName} {failure : FileFailure}
    (read : d.read name = .error failure) : d.rewrite? name = none := by
  rw [Option.eq_none_iff_forall_ne_some]
  rintro ⟨parts, text⟩ written
  obtain ⟨found, contents, held, _⟩ := rewrite?_eq_some.mp written
  rw [read_eq_ok_iff.mpr ⟨parts, found, held⟩] at read
  cases read

theorem Directory.result_put {d : Directory} {parts : List String} (known : (d.contents? parts).isSome)
    {name : FileName} (apart : d.file? name ≠ some parts) (text : String) :
    (d.put parts text).result name = d.result name := by
  have read : (d.put parts text).read name = d.read name :=
    (sameTree_put known text).read fun own leads =>
      contents?_put_of_ne _ _ _ _ fun same => apart (same ▸ leads)
  simp only [result, Session.result, Session.start, read]

-- One source after the other: each is written where it was read, and the others read the same as before.
theorem run_inPlace {inv : Invocation} (place : inv.destination = .inPlace) {s : Session}
    {names : List FileName} (distinct : (names.filterMap s.directory.file?).Nodup) :
    (s.run inv names).directory = (names.filterMap s.directory.rewrite?).foldl Directory.update s.directory ∧
      (s.run inv names).ending = .exit (exitCode (s.results ++ names.map s.directory.result)) := by
  induction names generalizing s with
  | nil => simp [Session.run, Session.finish]
  | cons name rest ih =>
    have result : s.result name = s.directory.result name := rfl
    have step (kept : inv.storage? (s.result name) = none) (none : s.directory.rewrite? name = none) :
        (s.run inv (name :: rest)).directory =
            ((name :: rest).filterMap s.directory.rewrite?).foldl Directory.update s.directory ∧
          (s.run inv (name :: rest)).ending =
            .exit (exitCode (s.results ++ (name :: rest).map s.directory.result)) := by
      have later : (rest.filterMap s.directory.file?).Nodup :=
        distinct.sublist (.filterMap _ (List.sublist_cons_self name rest))
      have more := ih (s := s.record inv (s.result name)) later
      rw [Session.run]
      simp only [kept]
      rw [more.1, more.2, List.filterMap_cons, none, List.map_cons, List.append_cons]
      exact ⟨rfl, rfl⟩
    cases read : s.directory.read name with
    | error failure =>
      have unreadable : s.result name = .unreadable name failure.message := by rw [Session.result, read]
      exact step (by rw [unreadable]; rfl) (Directory.rewrite?_unreadable read)
    | ok contents =>
      obtain ⟨parts, found, held⟩ := Directory.read_eq_ok_iff.mp read
      have expanded : s.result name = .ofContents name contents := by rw [Session.result, read]
      have storage := storage?_inPlace place name contents
      have write : s.directory.rewrite? name = (inPlace? contents).map fun text => (parts, text) := by
        rw [Directory.rewrite?, found, Option.bind_some, held, Option.bind_some]
      cases new : inPlace? contents with
      | none => exact step (by rw [expanded, storage, new]; rfl) (by rw [write, new]; rfl)
      | some text =>
        rw [new] at storage write
        have known : (s.directory.contents? parts).isSome := Option.isSome_of_eq_some held
        have same : (s.directory.put parts text).SameTree s.directory := Directory.sameTree_put known text
        rw [List.filterMap_cons, found] at distinct
        obtain ⟨apart, later⟩ := List.nodup_cons.mp distinct
        -- the sources that are left lead to other files
        have other : ∀ source ∈ rest, s.directory.file? source ≠ some parts :=
          fun source listed leads => apart (List.mem_filterMap.mpr ⟨source, listed, leads⟩)
        have writes : rest.filterMap (s.directory.put parts text).rewrite? =
            rest.filterMap s.directory.rewrite? :=
          List.filterMap_congr fun source listed => Directory.rewrite?_put known (other source listed) text
        have results : rest.map (s.directory.put parts text).result = rest.map s.directory.result :=
          List.map_congr_left fun source listed => Directory.result_put known (other source listed) text
        have more := ih (s := { s.record inv (s.result name) with directory := s.directory.put parts text })
          (by simpa only [same.file?] using later)
        rw [Session.run]
        simp only [expanded, storage, Option.map_some, Directory.write_file found]
        rw [← expanded, more.1, more.2, List.filterMap_cons, write, Option.map_some, List.foldl_cons,
          List.map_cons, List.append_cons, ← writes, ← results]
        exact ⟨rfl, rfl⟩

namespace Directory

variable {d : Directory} {writes : List (List String × String)}

theorem known_update {w : List String × String} (first : (d.contents? w.1).isSome)
    (known : ∀ v ∈ writes, (d.contents? v.1).isSome) : ∀ v ∈ writes, ((d.update w).contents? v.1).isSome := by
  intro v listed
  rw [update, (sameTree_put first w.2).known]
  exact known v listed

theorem sameTree_foldl (known : ∀ w ∈ writes, (d.contents? w.1).isSome) :
    SameTree (writes.foldl update d) d := by
  induction writes generalizing d with
  | nil => exact .refl d
  | cons w writes ih =>
    obtain ⟨first, others⟩ := List.forall_mem_cons.mp known
    exact (ih (known_update first others)).trans (sameTree_put first w.2)

theorem contents?_foldl_of_notMem {parts : List String} (none : ∀ w ∈ writes, w.1 ≠ parts) :
    (writes.foldl update d).contents? parts = d.contents? parts := by
  induction writes generalizing d with
  | nil => rfl
  | cons w writes ih =>
    obtain ⟨first, others⟩ := List.forall_mem_cons.mp none
    rw [List.foldl_cons, ih others, update, contents?_put_of_ne _ _ _ _ first.symm]

theorem contents?_foldl_of_mem (distinct : (writes.map Prod.fst).Nodup) {parts : List String} {text : String}
    (listed : (parts, text) ∈ writes) : (writes.foldl update d).contents? parts = some text := by
  induction writes generalizing d with
  | nil => cases listed
  | cons w writes ih =>
    obtain ⟨apart, distinct⟩ := List.nodup_cons.mp distinct
    rw [List.foldl_cons]
    rcases List.mem_cons.mp listed with rfl | later
    · have none : ∀ v ∈ writes, v.1 ≠ parts := fun v present same =>
        apart (List.mem_map.mpr ⟨v, present, same⟩)
      rw [contents?_foldl_of_notMem none]
      exact contents?_put_self d parts text
    · exact ih distinct later

-- The order of the writes does not matter.
theorem foldl_perm {others : List (List String × String)} (known : ∀ w ∈ writes, (d.contents? w.1).isSome)
    (distinct : (writes.map Prod.fst).Nodup) (same : writes.Perm others) :
    writes.foldl update d = others.foldl update d := by
  induction same generalizing d with
  | nil => rfl
  | cons w same ih =>
    obtain ⟨first, known⟩ := List.forall_mem_cons.mp known
    exact ih (known_update first known) (List.nodup_cons.mp distinct).2
  | swap v w writes =>
    obtain ⟨second, known⟩ := List.forall_mem_cons.mp known
    obtain ⟨apart, _⟩ := List.nodup_cons.mp distinct
    have different : w.1 ≠ v.1 := fun same => apart (List.mem_map.mpr ⟨v, .head _, same.symm⟩)
    rw [List.foldl_cons, List.foldl_cons, List.foldl_cons, List.foldl_cons, update, update,
      put_comm second (known v (.head _)) different]
    rfl
  | trans first _ one two =>
    rw [one known distinct]
    exact two (fun w listed => known w (first.mem_iff.mpr listed)) ((first.map _).nodup_iff.mp distinct)

theorem known_rewrites (d : Directory) (names : List FileName) :
    ∀ w ∈ names.filterMap d.rewrite?, (d.contents? w.1).isSome := by
  intro w listed
  obtain ⟨name, _, write⟩ := List.mem_filterMap.mp listed
  obtain ⟨_, contents, held, _⟩ := rewrite?_eq_some.mp write
  exact Option.isSome_of_eq_some held

theorem rewrites_sublist (d : Directory) (names : List FileName) :
    ((names.filterMap d.rewrite?).map Prod.fst).Sublist (names.filterMap d.file?) := by
  induction names with
  | nil => exact .slnil
  | cons name rest ih =>
    rw [List.filterMap_cons, List.filterMap_cons]
    cases write : d.rewrite? name with
    | none =>
      cases d.file? name with
      | none => exact ih
      | some parts => exact ih.cons parts
    | some w =>
      obtain ⟨found, _⟩ := rewrite?_eq_some.mp write
      rw [found]
      exact ih.cons_cons _

end Directory

theorem classify_plain {word : String} (plain : word.toList.head? ≠ some '-') :
    CommandWord.classify word = .ok (.plain word) := by
  unfold CommandWord.classify
  split
  · rename_i same
    rw [same] at plain
    exact absurd rfl plain
  · rfl

theorem classifyAll_plain {words : List String} (plain : ∀ word ∈ words, word.toList.head? ≠ some '-') :
    classifyAll words = .ok (words.map .plain) := by
  induction words with
  | nil => rfl
  | cons word words ih =>
    obtain ⟨first, others⟩ := List.forall_mem_cons.mp plain
    have word' : word ≠ "--" := by
      rintro rfl
      exact first rfl
    rw [classifyAll, if_neg word', classify_plain first, ih others]
    rfl

theorem understand_plain (u : Understood) (stretch : List CommandWord) (words : List String) :
    understand u stretch (words.map .plain) = .ok (u.takeStretch (stretch ++ words.map .plain)) := by
  induction words generalizing stretch with
  | nil => rw [List.map_nil, understand, List.append_nil]
  | cons word words ih => rw [List.map_cons, understand, ih, List.append_assoc, List.singleton_append]

-- The flags in front of plain words ask for a run in place over what the words name.
theorem ofArguments_inPlace {words : List String} (json : Bool) (some : words ≠ [])
    (plain : ∀ word ∈ words, word.toList.head? ≠ Option.some '-') :
    Request.ofArguments ("--in-place" :: (if json then ["--json"] else []) ++ words) =
      .ok (.expand ⟨words.map FileName.ofText, .inPlace, json, false⟩) := by
  have flags : classifyAll ("--in-place" :: (if json then ["--json"] else []) ++ words) =
      .ok (.flag .inPlace false none :: (if json then [.flag .json false none] else []) ++
        words.map .plain) := by
    cases json
    · rw [List.cons_append, if_neg (by decide), List.nil_append, classifyAll, classifyAll_plain plain]
      rfl
    · rw [List.cons_append, if_pos rfl, List.cons_append, classifyAll, classifyAll,
        List.nil_append, classifyAll_plain plain]
      rfl
  have stretch (u : Understood) (unnamed : u.sources = none) :
      u.takeStretch (words.map .plain) = { u with sources := Option.some words } := by
    have any : (words.map CommandWord.plain).any CommandWord.isPlain := by
      cases words with
      | nil => exact absurd rfl some
      | cons word words => rfl
    have separator : .separator ∉ words.map CommandWord.plain := by simp
    have texts : (words.map CommandWord.plain).map CommandWord.text = words := by
      rw [List.map_map]
      exact List.map_id words
    rw [Understood.takeStretch, unnamed, any, List.erase_of_not_mem separator, texts]
    rfl
  have known : understand .nothing [] (.flag .inPlace false none :: (if json then [.flag .json false none] else []) ++
      words.map .plain) = .ok ⟨Option.some words, none, true, json, false, false, []⟩ := by
    cases json
    · exact (understand_plain ⟨none, none, true, false, false, false, []⟩ [] words).trans
        (congrArg Except.ok (stretch _ rfl))
    · exact (understand_plain ⟨none, none, true, true, false, false, []⟩ [] words).trans
        (congrArg Except.ok (stretch _ rfl))
  rw [Request.ofArguments, flags]
  exact (congrArg (· >>= Understood.request) known).trans rfl

-- A source that cannot be read, or whose text is not in order.
def Directory.Refuses (d : Directory) (name : FileName) : Prop :=
  (∃ failure, d.read name = .error failure) ∨
    ∃ contents, d.read name = .ok contents ∧ ¬(expandText (unified contents) none).ok

theorem result_ok {d : Directory} {name : FileName} : (d.result name).ok = true ↔ ¬d.Refuses name := by
  unfold Directory.result Session.result Session.start Directory.Refuses
  cases read : d.read name with
  | error failure => simp [SourceResult.ok, SourceResult.diagnostics]
  | ok contents =>
    have same := (expandText_file (unified contents) (some name.render)).2
    have own : (SourceResult.ofContents name contents).ok = (expandText (unified contents) none).ok := same
    simp [own]

-- A run in place ends with one if a source cannot be read or is not in order, and with zero otherwise. In the
-- end each source that can be read holds what its own text is expanded to, or what it held if that says the
-- same; no other file is made or changed; and another order of the sources leads to the same end.
theorem in_place_independent {arguments : List String} {inv : Invocation} {d : Directory}
    (asked : Request.ofArguments arguments = .ok (.expand inv)) (place : inv.destination = .inPlace)
    (distinct : (inv.sources.filterMap d.file?).Nodup) :
    ((∃ name ∈ inv.sources, d.Refuses name) → (runCommand arguments d).ending = .exit 1) ∧
    ((∀ name ∈ inv.sources, ¬d.Refuses name) → (runCommand arguments d).ending = .exit 0) ∧
    (∀ name ∈ inv.sources, ∀ contents, d.read name = .ok contents →
      (runCommand arguments d).directory.read name = .ok (inPlaceText contents)) ∧
    (runCommand arguments d).directory.SameTree d ∧
    (∀ parts, (∀ name ∈ inv.sources, d.file? name ≠ some parts) →
      (runCommand arguments d).directory.contents? parts = d.contents? parts) ∧
    ∀ others inv', Request.ofArguments others = .ok (.expand inv') → inv'.destination = .inPlace →
      inv.sources.Perm inv'.sources → (runCommand others d).directory = (runCommand arguments d).directory ∧
        (runCommand others d).ending = (runCommand arguments d).ending := by
  have run {arguments : List String} {inv : Invocation}
      (asked : Request.ofArguments arguments = .ok (.expand inv)) (place : inv.destination = .inPlace)
      (distinct : (inv.sources.filterMap d.file?).Nodup) :
      (runCommand arguments d).directory = (inv.sources.filterMap d.rewrite?).foldl Directory.update d ∧
        (runCommand arguments d).ending = .exit (exitCode (inv.sources.map d.result)) := by
    unfold runCommand
    rw [asked]
    exact run_inPlace place (s := .start d) distinct
  obtain ⟨directory, ending⟩ := run asked place distinct
  have known := Directory.known_rewrites d inv.sources
  have targets := distinct.sublist (Directory.rewrites_sublist d inv.sources)
  have tree := Directory.sameTree_foldl known
  refine ⟨fun ⟨name, listed, refuses⟩ => ?_, fun all => ?_, fun name listed contents read => ?_, ?_, ?_, ?_⟩
  · rw [ending, exitCode, if_neg]
    intro all
    exact result_ok.mp (List.all_eq_true.mp all _ (List.mem_map_of_mem listed)) refuses
  · rw [ending, exitCode, if_pos]
    refine List.all_eq_true.mpr (List.forall_mem_map.mpr fun name listed => ?_)
    exact result_ok.mpr (all name listed)
  · obtain ⟨parts, found, held⟩ := Directory.read_eq_ok_iff.mp read
    rw [directory, Directory.read_eq_ok_iff]
    refine ⟨parts, (tree.file? name).trans found, ?_⟩
    cases new : inPlace? contents with
    | some text =>
      have write : d.rewrite? name = some (parts, text) :=
        Directory.rewrite?_eq_some.mpr ⟨found, contents, held, new⟩
      rw [Directory.contents?_foldl_of_mem targets (List.mem_filterMap.mpr ⟨name, listed, write⟩),
        inPlaceText, new]
      rfl
    | none =>
      rw [Directory.contents?_foldl_of_notMem, held, inPlaceText, new]
      · rfl
      · -- a source with the same file is the same source, and nothing is written for it
        intro w present same
        obtain ⟨other, _, write⟩ := List.mem_filterMap.mp present
        obtain ⟨_, contents', held', written⟩ := Directory.rewrite?_eq_some.mp write
        rw [same, held, Option.some.injEq] at held'
        rw [← held', new] at written
        cases written
  · rw [directory]
    exact tree
  · intro parts none
    rw [directory, Directory.contents?_foldl_of_notMem]
    intro w present same
    obtain ⟨name, listed, write⟩ := List.mem_filterMap.mp present
    obtain ⟨found, _⟩ := Directory.rewrite?_eq_some.mp write
    exact none name listed (same ▸ found)
  · intro others inv' asked' place' same
    obtain ⟨directory', ending'⟩ := run asked' place' (((same.filterMap _).nodup_iff).mp distinct)
    constructor
    · rw [directory', directory]
      exact (Directory.foldl_perm known targets (same.filterMap _)).symm
    · rw [ending', ending, exitCode, exitCode, ((same.map d.result).all_eq)]

def mixedDirectory : Directory where
  working := ["home", "run"]
  folders := []
  files := [
    (["home", "run", "a.rs"], "#[async_trait]\r\ntrait A \x7b\x7d\r\n"),
    (["home", "b.rs"], "fn b() \x7b\r\n\x7d\r\n"),
    (["tmp", "c.rs"], "#[async_trait]trait C \x7b\x7d"),
    (["e.rs"], "e")]

-- One source is expanded, one outside of the place of work stays as it is, one is named from the root, and one is
-- missing.
theorem in_place_independent_mixed :
    let outcome := runCommand ["--in-place", "--json", "a.rs", "../b.rs", "/tmp/c.rs", "d.rs"] mixedDirectory
    outcome.ending = .exit 1 ∧
      outcome.directory.read ⟨"", ["a.rs"]⟩ = .ok "trait A \x7b\x7d\n" ∧
      outcome.directory.read ⟨"", ["..", "b.rs"]⟩ = .ok "fn b() \x7b\r\n\x7d\r\n" ∧
      outcome.directory.read ⟨"/", ["tmp", "c.rs"]⟩ = .ok "trait C \x7b\x7d" ∧
      outcome.directory.contents? ["e.rs"] = some "e" := by
  have asked := @ofArguments_inPlace ["a.rs", "../b.rs", "/tmp/c.rs", "d.rs"] true (by simp) (by decide)
  have sources : ["a.rs", "../b.rs", "/tmp/c.rs", "d.rs"].map FileName.ofText =
      [⟨"", ["a.rs"]⟩, ⟨"", ["..", "b.rs"]⟩, ⟨"/", ["tmp", "c.rs"]⟩, ⟨"", ["d.rs"]⟩] := by decide +kernel
  rw [sources] at asked
  obtain ⟨fails, _, kept, _, others, _⟩ :=
    in_place_independent (d := mixedDirectory) asked rfl (by decide +kernel)
  refine ⟨fails ⟨⟨"", ["d.rs"]⟩, by decide, .inl ⟨.missing, by decide +kernel⟩⟩, ?_, ?_, ?_, ?_⟩
  · have first := kept ⟨"", ["a.rs"]⟩ (by decide) "#[async_trait]\r\ntrait A \x7b\x7d\r\n" (by decide +kernel)
    exact first.trans (by decide +kernel)
  · have second := kept ⟨"", ["..", "b.rs"]⟩ (by decide) "fn b() \x7b\r\n\x7d\r\n" (by decide +kernel)
    exact second.trans (by decide +kernel)
  · have third := kept ⟨"/", ["tmp", "c.rs"]⟩ (by decide) "#[async_trait]trait C \x7b\x7d" (by decide +kernel)
    exact third.trans (by decide +kernel)
  · exact (others ["e.rs"] (by decide +kernel)).trans (by decide +kernel)

end Deasync
