import Deasync.Proofs.Capture.Scope
import Deasync.Proofs.InnerFunction
import Deasync.Proofs.Lifting

namespace Deasync

end Deasync
