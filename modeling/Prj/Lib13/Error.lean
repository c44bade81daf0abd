import Mathlib.Tactic.TypeStar

/-! Result codes (`lib13/include/error13.h`). -/
namespace Prj.Lib13

/-- The codes that `e13_error` makes negative. -/
inductive E13
  | perm
  | nomem
  | ioerr
  | notfound
  | empty
  | misuse
  | auth
  | notvalid
  | syse
  | exists_
  | full
  | toosmall
  | syntaxError
deriving DecidableEq, Repr

/-- `error13_t`: `E13_OK`, the two positive codes in use, and the errors. -/
inductive Ret
  | ok
  | continue_
  | done
  | err (e : E13)
deriving DecidableEq, Repr

end Prj.Lib13
