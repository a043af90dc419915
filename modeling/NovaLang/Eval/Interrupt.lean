import NovaLang.Node
import NovaLang.Report

namespace NovaLang.Eval

/-! # Interrupts

What stops a run before its end.
-/

/-- Why a run stops before its end. -/
inductive Interrupt where
  /-- The program is at fault. -/
  | runtime (error : RuntimeError)
  /-- The tree or the host is at fault. -/
  | fault (fault : Fault)
  /-- A loop has had more rounds than it was allowed. -/
  | endless
  deriving DecidableEq, Repr

end NovaLang.Eval
