import PlanGraph.Command.Run

set_option autoImplicit false

/-! # The command line on real files -/

namespace PlanGraph

namespace Main

/-- The number of a failure, which may be reported with a minus sign. -/
def failureNumber (code : UInt32) : UInt32 := if code < 0x80000000 then code else 0 - code

/-- The cause of a failure that the system reports. -/
def fileError : IO.Error → FileError
  | .noFileOrDirectory .. => .notFound
  | .permissionDenied .. => .denied
  | .inappropriateType file code details =>
    if failureNumber code = 20 then .notDirectory
    else if failureNumber code = 21 then .isDirectory
    else .other (IO.Error.inappropriateType file code details).toString.toList
  | .invalidArgument file code details =>
    if failureNumber code = 36 then .nameTooLong
    else .other (IO.Error.invalidArgument file code details).toString.toList
  | .resourceExhausted file code details =>
    if failureNumber code = 28 then .noSpace
    else .other (IO.Error.resourceExhausted file code details).toString.toList
  | e => .other e.toString.toList

/-- The files of the system. -/
def files : FileSystem IO where
  isFile path := do
    try
      let found ← (← IO.FS.realPath (String.ofList path)).metadata
      return found.type == .file
    catch _ => return false
  read path := do
    try
      return .ok (← IO.FS.readBinFile (String.ofList path)).toList
    catch e => return .error (fileError e)
  write path bytes := do
    try
      return .ok (← IO.FS.writeBinFile (String.ofList path) ⟨bytes.toArray⟩)
    catch e => return .error (fileError e)

end Main

end PlanGraph

open PlanGraph in
/-- Runs the command that the arguments ask for. -/
def main (arguments : List String) : IO UInt32 := do
  match ← Command.runLine Main.files (arguments.map String.toList) with
  | .ok output =>
    IO.print (String.ofList output)
    return 0
  | .error (.arguments cause) =>
    IO.eprintln ("error: " ++ String.ofList cause.message)
    return 1
  | .error (.plan cause) =>
    IO.eprintln ("Error: " ++ String.ofList cause.message)
    return 1
