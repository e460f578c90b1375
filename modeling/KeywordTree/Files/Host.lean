import KeywordTree.Files.Directory

/-! What the program asks of its surroundings, and surroundings that are a value. -/
namespace KeywordTree

structure Host (m : Type → Type) where
  read : String → m (Except FileError Bytes)
  write : String → Bytes → m (Except FileError Unit)
  print : String → m Unit
  /-- A running count of milliseconds. -/
  clock : m Nat
  /-- So many strings of lower-case letters, drawn from a seed, each of one of the lengths. -/
  draw : (count seed : Nat) → (lengths : List Nat) → m (List Bytes)

structure World where
  directory : Directory
  printed : String := ""

/-- Surroundings with a working directory, in which printing never fails, no time passes
and nothing is drawn. -/
def World.host (home : Place := ["work"]) : Host (StateM World) where
  read path := do return (← get).directory.read home path
  write path content := do
    let world ← get
    match world.directory.write home path content with
    | .error error => return .error error
    | .ok directory =>
      set { world with directory }
      return .ok ()
  print text := modify fun world => { world with printed := world.printed ++ text }
  clock := return 0
  draw _ _ _ := return []

end KeywordTree
