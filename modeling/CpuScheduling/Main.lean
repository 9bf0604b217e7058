import CpuScheduling.CommandLine.Session

/-!
The program: it reads the document that the options name, runs the session and
writes what the session prints.
-/

namespace CpuScheduling.CommandLine

/-- What a failed reading gives.  A directory can be opened but not read.  The
number of a name that is too long comes with either sign. -/
def Contents.ofFailure : IO.Error → Contents
  | .noFileOrDirectory .. => .unopened .missing
  | .permissionDenied .. => .unopened .denied
  | .inappropriateType _ 21 _ => .unreadable .isDirectory
  | .inappropriateType .. => .unopened .notDirectory
  | .invalidArgument path code details =>
      if code = 36 ∨ code = -36 then .unopened .nameTooLong
      else .unreadable (.other (toString (IO.Error.invalidArgument path code details)))
  | failure => .unreadable (.other (toString failure))

def readSource : Source → IO Contents
  | .standardInput => do
      let input ← IO.getStdin
      return ofResult (← input.readBinToEnd.toBaseIO)
  | .file path => return ofResult (← (IO.FS.readBinFile path).toBaseIO)
where
  ofResult : Except IO.Error ByteArray → Contents
    | .ok bytes => .bytes bytes.toList
    | .error failure => .ofFailure failure

end CpuScheduling.CommandLine

open CpuScheduling CpuScheduling.CommandLine in
def main (arguments : List String) : IO UInt32 := do
  let output : Checked Output ←
    match Options.ofArguments? arguments with
    | none => pure (.ok .usage)
    | some options =>
        match options.source? with
        | none => pure (run options fun _ => .bytes [])
        | some source => do
            let contents ← readSource source
            pure (run options fun _ => contents)
  match output with
  | .ok output =>
      IO.print output.out
      IO.eprint output.err
      return UInt32.ofNat output.status
  | .error _ =>
      IO.eprintln "internal error: a check of the machine failed"
      return 101
