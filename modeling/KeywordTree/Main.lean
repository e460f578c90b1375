import KeywordTree.CommandLine.Run

/-! The program: its surroundings are the operating system. -/
namespace KeywordTree

private def fileError : IO.Error → FileError
  | .noFileOrDirectory .. => .missing
  | .inappropriateType _ code _ => if code = 21 then .isFolder else .notFolder
  | .invalidArgument _ 36 _ => .tooLong
  | .permissionDenied .. => .other "Permission denied (os error 13)"
  | error => .other (toString error)

private def attempt {α : Type} (action : IO α) : IO (Except FileError α) := do
  try return .ok (← action)
  catch error => return .error (fileError error)

private def drawLetter (source : StdGen) : UInt8 × StdGen :=
  let (offset, rest) := randNat source 0 25
  (UInt8.ofNat (97 + offset), rest)

private def drawLetters : Nat → StdGen → Bytes × StdGen
  | 0, source => ([], source)
  | count + 1, source =>
    let (letter, source) := drawLetter source
    let (rest, source) := drawLetters count source
    (letter :: rest, source)

/-- So many strings from a source of random numbers. Without lengths there are none. -/
private def drawStrings (lengths : List Nat) : Nat → StdGen → List Bytes
  | 0, _ => []
  | count + 1, source =>
    let (choice, source) := randNat source 0 (lengths.length - 1)
    match lengths[choice]? with
    | none => []
    | some length =>
      let (drawn, source) := drawLetters length source
      drawn :: drawStrings lengths count source

def operatingSystem : Host IO where
  read path := attempt do
    return (← IO.FS.withFile path .read fun file => file.readBinToEnd).data.toList
  write path content := attempt (IO.FS.writeBinFile path ⟨content.toArray⟩)
  print := IO.print
  clock := IO.monoMsNow
  draw count seed lengths := return drawStrings lengths count (mkStdGen seed)

end KeywordTree

def main (args : List String) : IO UInt32 := do
  let exit ← KeywordTree.CommandLine.run KeywordTree.operatingSystem args
  IO.eprint exit.errors
  return exit.code.toUInt32
