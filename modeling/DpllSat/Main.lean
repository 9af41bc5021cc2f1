import DpllSat.Command.Run

/-! The program: runs a command on the files, the clock and the output of the machine. -/
namespace DpllSat

namespace FileError

/-- An error of the machine as far as the commands tell them apart. An error code may come
with either sign. -/
def ofMachine : IO.Error → FileError
  | .noFileOrDirectory _ _ _ => .notFound
  | e@(.permissionDenied _ code _) =>
    if code = 13 ∨ code = -13 then .denied else .other (toString e)
  | e@(.inappropriateType _ code _) =>
    if code = 20 ∨ code = -20 then .notDirectory
    else if code = 21 ∨ code = -21 then .isDirectory
    else .other (toString e)
  | e@(.invalidArgument _ code _) =>
    if code = 36 ∨ code = -36 then .nameTooLong
    else if code = 40 ∨ code = -40 then .tooManyLinks
    else .other (toString e)
  | e => .other (toString e)

def attempt {α : Type} (act : IO α) : IO (Except FileError α) := do
  match ← act.toBaseIO with
  | .ok a => return .ok a
  | .error e => return .error (ofMachine e)

end FileError

/-- The root of an entry without a name is the path itself. -/
def Path.entry (p : Path) : IO.FS.DirEntry := ⟨p.text, ""⟩

def secondsText (milliseconds : Nat) : String :=
  let hundredths := (milliseconds + 5) / 10
  let places := toString (hundredths % 100)
  s!"{hundredths / 100}." ++ (if places.length < 2 then "0" ++ places else places)

instance : Host IO where
  Handle := IO.FS.Handle
  read path := FileError.attempt do return (← IO.FS.readBinFile path.text).toList
  create path := FileError.attempt (IO.FS.Handle.mk path.text .write)
  append handle text := FileError.attempt do
    handle.putStr text
    handle.flush
  list path := do
    match ← FileError.attempt path.entry.root.readDir with
    | .error e => return ⟨[], some e⟩
    | .ok entries =>
      return ⟨entries.toList.filterMap fun e => Name.of? (Text.encode e.fileName.toList), none⟩
  isDirectory path := path.entry.root.isDir
  now := IO.monoMsNow
  print n := IO.print (n.render secondsText toString)

def usage : String :=
  "usage: solve PATH | bench --dir DIR | gen --vars N --clauses N --out PATH | stats PATH"

end DpllSat

open DpllSat in
def main (args : List String) : IO UInt32 := do
  match Command.read args with
  | none =>
    IO.eprintln usage
    return 2
  | some command =>
    match ← (command.run : IO (Except Failure Unit)) with
    | .ok () => return 0
    | .error failure =>
      IO.eprint failure.render
      return 1
