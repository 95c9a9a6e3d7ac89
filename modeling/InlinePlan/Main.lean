import InlinePlan.Command.Run

set_option autoImplicit false

/-! # The command line tool

Reads the files that the arguments name, runs the command, and prints what it leaves behind. -/

namespace InlinePlan.Command

/-- The number by which the system says that what is to be read is a folder. -/
def folderCode : UInt32 := 21

/-- What a path leads to on this system. -/
def readEntry (path : String) : IO (String × Except PathFault PathEntry) := do
  try
    let text ← IO.FS.readFile path
    return (path, .ok (.file text))
  catch
    | .inappropriateType _ code _ =>
      return (path, if code = folderCode then .ok .folder else .error .notFolder)
    | .invalidArgument _ _ _ => return (path, .error .invalid)
    | _ => return (path, .error .absent)

/-- A random name for a compilation, written like a version 4 universal identifier. -/
def compilationName : IO String := do
  let mut digits : List Char := []
  for i in List.range 32 do
    let n ← IO.rand 0 15
    let n := if i = 12 then 4 else if i = 16 then 8 + n % 4 else n
    digits := digits ++ [Nat.digitChar n]
  let part (start count : Nat) : String := String.ofList ((digits.drop start).take count)
  return String.intercalate "-" [part 0 8, part 8 4, part 12 4, part 16 4, part 20 12]

end InlinePlan.Command

/-- Runs the tool with the arguments of the process. -/
def main (args : List String) : IO UInt32 := do
  let compilation ← InlinePlan.Command.compilationName
  let entries ← (InlinePlan.Command.paths args).mapM InlinePlan.Command.readEntry
  let entry (path : String) := (entries.lookup path).getD (.error .absent)
  let outcome := InlinePlan.Command.run { entry, compilation } args
  IO.eprint outcome.log
  IO.print outcome.output
  match outcome.fault with
  | none => return 0
  | some fault =>
    IO.eprintln ("Error: " ++ fault.message)
    return 1
