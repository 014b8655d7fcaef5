import Ylos.Verification.Buffer.Coherence

/-! # No lost write-back -/

namespace Ylos.Cache

open Exec

variable {τ α : Type} [Fintype τ] [DecidableEq τ] {s : State τ α}

end Ylos.Cache
