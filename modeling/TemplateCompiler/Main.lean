import TemplateCompiler.Build.CommandLine

/-!
The program: the command line over the files and streams of the system.
-/

namespace TemplateCompiler

def succeeds (action : IO Unit) : IO Bool := do
  try
    action
    return true
  catch _ => return false

def systemHost : Host IO where
  read path := do
    try
      return some (← IO.FS.readFile path)
    catch _ => return none
  isDirectory path := do
    try
      (← IO.FS.realPath path).isDir
    catch _ => return false
  makeDirectory path := do
    try
      IO.FS.createDir path
      return .made
    catch
      | .noFileOrDirectory .. => return .lost
      | _ => return .refused
  write path content := succeeds (IO.FS.writeFile path content)
  print line := IO.println line
  report line := IO.eprintln line

end TemplateCompiler

def main (arguments : List String) : IO UInt32 := do
  let code ← TemplateCompiler.Command.run TemplateCompiler.systemHost arguments
  return code.toUInt32
