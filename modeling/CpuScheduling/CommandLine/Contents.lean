import CpuScheduling.Json.Failure

/-!
What a file gives when it is read: its bytes, or the reason why there are none.
A directory can be opened, but it holds no text.
-/

namespace CpuScheduling.CommandLine

inductive FileError where
  | missing
  | denied
  | notDirectory
  | isDirectory
  | nameTooLong
  | other (reason : String)
  deriving DecidableEq

namespace FileError

def message : FileError → String
  | missing => "No such file or directory (os error 2)"
  | denied => "Permission denied (os error 13)"
  | notDirectory => "Not a directory (os error 20)"
  | isDirectory => "Is a directory (os error 21)"
  | nameTooLong => "File name too long (os error 36)"
  | other reason => reason

end FileError

inductive Contents where
  | bytes (bytes : Json.Bytes)
  | unopened (error : FileError)
  | unreadable (error : FileError)
  deriving DecidableEq

end CpuScheduling.CommandLine
