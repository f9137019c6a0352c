import OsProjects.Library.Bytes

/-!
# Ways the process can end

The key/value store ends the process in several ways, and what is said of a call
has to tell them apart: a failed `assert`, the `EXIT` macro of `system.h`, a plain
`exit(0)`, a NULL dereference, an access in front of a buffer, and a loop of the source
that never ends.
-/
namespace OsProjects.KeyValue

inductive Fault where
  | assertion
  | exitSoftware
  | exit
  | nullPointer
  | wildPointer
  | hang
  deriving DecidableEq, Repr

end OsProjects.KeyValue
