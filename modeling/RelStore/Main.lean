import RelStore.Http.Service

/-!
# The server program

`main` serves one connection: it reads what the client sends from the standard input and writes the
responses to the standard output. The name of a snapshot file may be given as an argument; without
one the database is empty at first.
-/

namespace RelStore

/-- Reads a stream to its end. -/
partial def readAll (stream : IO.FS.Stream) (read : ByteArray) : IO ByteArray := do
  let chunk ← stream.read 65536
  if chunk.isEmpty then return read else readAll stream (read ++ chunk)

/-- The database of a snapshot file, or one without tables. -/
def openDatabase (path : Option String) : IO Database :=
  match path with
  | none => return .empty
  | some path => do
    match Database.ofFile (.ofString (← IO.FS.readFile path)) with
    | .ok db => return db
    | .error fault =>
      throw (IO.userError ((fault.message?.map Text.asString).getD "Malformed snapshot"))

end RelStore

/-- Serves the connection of the standard streams. -/
def main (args : List String) : IO Unit := do
  let db ← RelStore.openDatabase args.head?
  let input ← RelStore.readAll (← IO.getStdin) ByteArray.empty
  let (written, _) := RelStore.Http.serve RelStore.Http.routes true db input.data.toList
  (← IO.getStdout).write (ByteArray.mk written.toArray)
