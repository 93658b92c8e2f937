import Mathlib.Tactic.Common

namespace Mbsd.Sys

/-- The error numbers of `sys/errno.h` that the modelled functions return.  A function
that returns an `int` error gives an `Option Errno`, where `none` is `0`. -/
inductive Errno
  | ENOENT | EINTR | ENXIO | ENOMEM | EAGAIN | EDEADLK | EEXIST | EINVAL | ENOBUFS | ECONNRESET
  | ETIMEDOUT | ESTALE | ENOLCK | EOVERFLOW | EPIPE | EFBIG | ENOSPC | EIDRM | E2BIG | ERANGE
  | EFAULT | EPERM | EACCES | EBADF | EMFILE | ENFILE | EBUSY | EIO | EISDIR | ENOMSG | EMSGSIZE
  | EAFNOSUPPORT | EXDEV | ESRCH
  deriving DecidableEq, Repr

/-! The assertions of `sys/systm.h`. -/

def kassert (p : Prop) [Decidable p] : Option Unit := if p then some () else none

variable {p : Prop} [Decidable p]

theorem kassert_true (h : p) : kassert p = some () := if_pos h

theorem of_kassert {u : Unit} (h : kassert p = some u) : p := by
  unfold kassert at h
  split at h
  · assumption
  · cases h

end Mbsd.Sys
