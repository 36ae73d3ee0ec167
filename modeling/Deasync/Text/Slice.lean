namespace Deasync.Text

def slice (text : String) (start stop : Nat) : String :=
  String.ofList ((text.toList.drop start).take (stop - start))

def sliceFrom (text : String) (start : Nat) : String :=
  String.ofList (text.toList.drop start)

structure Patch where
  start : Nat
  stop : Nat
  replacement : String
  deriving Repr, DecidableEq

-- `text` from `position` on, with every patch applied. The patches are in increasing order, start at or after
-- `position` and do not overlap.
def patchFrom (text : String) (position : Nat) : List Patch → String
  | [] => sliceFrom text position
  | patch :: later =>
    slice text position patch.start ++ patch.replacement ++ patchFrom text patch.stop later

def patched (text : String) (patches : List Patch) : String := patchFrom text 0 patches

@[simp] theorem toList_slice (text : String) (start stop : Nat) :
    (slice text start stop).toList = (text.toList.drop start).take (stop - start) := by
  simp [slice]

@[simp] theorem toList_sliceFrom (text : String) (start : Nat) :
    (sliceFrom text start).toList = text.toList.drop start := by
  simp [sliceFrom]

theorem patched_nil (text : String) : patched text [] = text := by
  simp [patched, patchFrom, sliceFrom]

end Deasync.Text
