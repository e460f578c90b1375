import KeywordTree.Command
import KeywordTree.Proofs.BuildOutcome
import KeywordTree.Proofs.Encoding
import KeywordTree.Proofs.Files

/-! Generating is all or nothing: a command that fails leaves its surroundings as they
were, and one that succeeds has put the whole text in one place and nothing elsewhere. -/
namespace KeywordTree

/-- What a state shows: the item at each site, the text printed so far, and the site of the
file that a path names, where it names one. -/
structure View (State Site : Type) where
  item? : State → Site → Option Item
  printed : State → String
  site? : State → String → Option Site

namespace View

variable {State Site : Type}

/-- One file is created or replaced, nothing changes at any other site and nothing is printed. -/
structure Replaces (view : View State Site) (before : State) (site : Site) (content : Bytes) (after : State) :
    Prop where
  file : view.item? after site = some (.file content)
  frame : ∀ other, other ≠ site → view.item? after other = view.item? before other
  quiet : view.printed after = view.printed before

/-- A text is printed and nothing changes at any site. -/
structure Prints (view : View State Site) (before : State) (text : String) (after : State) : Prop where
  printed : view.printed after = view.printed before ++ text
  frame : ∀ site, view.item? after site = view.item? before site

end View

/-- Surroundings in which reading changes nothing, printing never fails, and writing either
fails and changes nothing or puts the whole content into the one file that the path names.
Which file that is, and for what reasons reading or writing fails, is left open. -/
structure Host.Atomic {State Site : Type} (host : Host (StateM State)) (view : View State Site) : Prop where
  read : ∀ path state, ((host.read path).run state).2 = state
  write : ∀ path content state,
    (∃ error, (host.write path content).run state = (.error error, state)) ∨
    ∃ site after, view.site? state path = some site ∧ (host.write path content).run state = (.ok (), after) ∧
      view.Replaces state site content after
  print : ∀ text state, ∃ after, (host.print text).run state = ((), after) ∧ view.Prints state text after

/-- Surroundings that are a map from paths to items. Every path names its own file, and any
write may be refused. -/
def Host.ofMap (refusal? : (String → Option Item) → String → Option FileError) :
    Host (StateM ((String → Option Item) × String)) where
  read path := return match (← get).1 path with
    | none => .error .missing
    | some .folder => .error .isFolder
    | some (.file content) => .ok content
  write path content := modifyGet fun (items, printed) =>
    match refusal? items path with
    | some error => (.error error, (items, printed))
    | none => (.ok (), (Function.update items path (some (.file content)), printed))
  print text := modify fun (items, printed) => (items, printed ++ text)
  clock := return 0
  draw _ _ _ := return []

def View.ofMap : View ((String → Option Item) × String) String where
  item? := Prod.fst
  printed := Prod.snd
  site? _ path := some path

theorem Host.ofMap_atomic (refusal? : (String → Option Item) → String → Option FileError) :
    (Host.ofMap refusal?).Atomic View.ofMap where
  read _ _ := rfl
  write path content state := by
    obtain ⟨items, printed⟩ := state
    have hrun : ((Host.ofMap refusal?).write path content).run (items, printed) =
        match refusal? items path with
        | some error => (.error error, (items, printed))
        | none => (.ok (), (Function.update items path (some (.file content)), printed)) := rfl
    rw [hrun]
    cases refusal? items path with
    | some error => exact .inl ⟨error, rfl⟩
    | none =>
      refine .inr ⟨path, _, rfl, rfl, ?_⟩
      exact ⟨Function.update_self .., fun other hother => Function.update_of_ne hother .., rfl⟩
  print _ _ := ⟨_, rfl, rfl, fun _ => rfl⟩

namespace World

/-- Items are seen under their paths; a path names the file that writing to it would create or replace. -/
def view (home : Place) : View World String where
  item? world path := world.directory.itemAt? home path
  printed := World.printed
  site? world path := (world.directory.target home path).toOption

theorem host_write_error {home : Place} {path : String} {world : World} {error : FileError}
    (h : world.directory.target home path = .error error) (content : Bytes) :
    ((host home).write path content).run world = (.error error, world) := by
  simp only [host, Directory.write, StateT.run_bind, StateT.run_get, pure_bind, h, Except.map]
  rfl

theorem host_write_ok {home : Place} {path file : String} {world : World}
    (h : world.directory.target home path = .ok file) (content : Bytes) :
    ((host home).write path content).run world =
      (.ok (), { world with directory := world.directory.put file content }) := by
  simp only [host, Directory.write, StateT.run_bind, StateT.run_get, pure_bind, h, Except.map]
  rfl

theorem host_atomic {home : Place} (hs : ∀ name ∈ home, '/' ∉ name.toList) : (host home).Atomic (view home) where
  read _ _ := rfl
  write path content world := by
    cases htarget : world.directory.target home path with
    | error error => exact .inl ⟨error, host_write_error htarget content⟩
    | ok file =>
      have hreplaces := Directory.replaces_target hs htarget content
      have hsite : (view home).site? world path = some file := congrArg Except.toOption htarget
      exact .inr ⟨file, _, hsite, host_write_ok htarget content, hreplaces.file, hreplaces.frame, rfl⟩
  print _ _ := ⟨_, rfl, rfl, fun _ => rfl⟩

end World

theorem Generator.compose_result (generator : Generator) (words : List Word) :
    (generator.compose words).result =
      (generator.build words).result >>= fun tree => .ok (tree, generator.render tree) := by
  simp [Generator.compose]

def Generator.report (generator : Generator) (output : String) (tree : Tree) : Report.Generated :=
  { output, words := tree.words.length, bytes := (generator.render tree).utf8ByteSize, census := tree.census }

theorem Generator.report_counts (generator : Generator) {words : List Word} {tree : Tree}
    (h : (generator.build words).result = .ok tree) (output : String) :
    (generator.report output tree).output = output ∧
      (generator.report output tree).bytes = (Text.encode (generator.render tree)).length ∧
      (generator.report output tree).words = words.length ∧ (generator.report output tree).census = tree.census :=
  ⟨rfl, (Text.length_encode _).symm, (words_perm_of_build h).length_eq, rfl⟩

variable {State Site : Type}

theorem run_bind_state {α β : Type} (action : StateM State α) (next : α → StateM State β) (state : State) :
    (action >>= next).run state = (next (action.run state).1).run (action.run state).2 := rfl

theorem loadWords_run {host : Host (StateM State)} {view : View State Site} (hh : host.Atomic view)
    (source : String) (features : List String) (state : State) :
    ((loadWords host source features).run state).2 = state := by
  rw [loadWords]
  split
  · rfl
  · rw [run_bind_state, hh.read]
    split <;> rfl

section Run

variable (host : Host (StateM State)) (view : View State Site) (generator : Generator) (output source : String)
  (features : List String) (state : State)

/-- The ways a generation can end, each with what it leaves behind. -/
inductive Generates : Except CommandError Report.Generated → State → Prop where
  | unloaded {error : LoadError} (load : (loadWords host source features).run state = (.error error, state)) :
    Generates (.error (loadFailure source error)) state
  | unbuilt {words : List Word} {error : BuildError}
    (load : (loadWords host source features).run state = (.ok words, state))
    (build : (generator.build words).result = .error error) :
    Generates (.error ⟨"Failed to generate reserved word switch", [error.message]⟩) state
  | unwritten {words : List Word} {tree : Tree} {error : FileError}
    (load : (loadWords host source features).run state = (.ok words, state))
    (build : (generator.build words).result = .ok tree) (file : output ≠ Report.standardOutput)
    (write : (host.write output (Text.encode (generator.render tree))).run state = (.error error, state)) :
    Generates (.error ⟨"Failed to write '" ++ output ++ "'", [error.message]⟩) state
  | printed {words : List Word} {tree : Tree} {after : State}
    (load : (loadWords host source features).run state = (.ok words, state))
    (build : (generator.build words).result = .ok tree) (standard : output = Report.standardOutput)
    (prints : view.Prints state (generator.render tree) after) :
    Generates (.ok (generator.report output tree)) after
  | written {words : List Word} {tree : Tree} {site : Site} {after : State}
    (load : (loadWords host source features).run state = (.ok words, state))
    (build : (generator.build words).result = .ok tree) (file : output ≠ Report.standardOutput)
    (names : view.site? state output = some site)
    (replaces : view.Replaces state site (Text.encode (generator.render tree)) after) :
    Generates (.ok (generator.report output tree)) after

theorem runGenerate_generates (hh : host.Atomic view) :
    Generates host view generator output source features state
      ((runGenerate host generator output source features).run state).1.result
      ((runGenerate host generator output source features).run state).2 := by
  have hload : (loadWords host source features).run state =
      (((loadWords host source features).run state).1, state) := Prod.ext rfl (loadWords_run hh source features state)
  rw [runGenerate, run_bind_state]
  cases hwords : ((loadWords host source features).run state).1 with
  | error error =>
    rw [hwords] at hload
    rw [hload]
    exact .unloaded hload
  | ok words =>
    rw [hwords] at hload
    rw [hload]
    simp only
    cases hbuild : (generator.build words).result with
    | error error =>
      have hcompose : (generator.compose words).result = .error error := by
        rw [generator.compose_result, hbuild]
        rfl
      rw [hcompose]
      exact .unbuilt hload hbuild
    | ok tree =>
      have hcompose : (generator.compose words).result = .ok (tree, generator.render tree) := by
        rw [generator.compose_result, hbuild]
        rfl
      rw [hcompose]
      simp only
      -- The whole text exists here, and nothing has been touched.
      split
      · rename_i hstandard
        obtain ⟨after, hprint, hprints⟩ := hh.print (generator.render tree) state
        rw [run_bind_state, hprint]
        exact .printed hload hbuild hstandard hprints
      · rename_i hfile
        rw [run_bind_state]
        rcases hh.write output (Text.encode (generator.render tree)) state with
          ⟨error, hw⟩ | ⟨site, after, hsite, hw, hreplaces⟩
        · rw [hw]
          exact .unwritten hload hbuild hfile hw
        · rw [hw]
          exact .written hload hbuild hfile hsite hreplaces

end Run

/-- A generation is all or nothing, whatever the surroundings hold and also where the text
replaces the list it was made from. A run that fails changes nothing, and fails because the
list does not load, has no tree or the text cannot be written. A run that succeeds loaded
the words as they were before it; the text of their tree is then either all that was
printed, with no file touched, or the content of the one file that the output names, with
nothing printed and nothing changed at any other site. The report counts that text, those
words and that tree. -/
theorem runGenerate_all_or_nothing {host : Host (StateM State)} {view : View State Site} (hh : host.Atomic view)
    (generator : Generator) (output source : String) (features : List String) (state : State) :
    ∃ logged after, (runGenerate host generator output source features).run state = (logged, after) ∧
      ((∃ error, logged.result = .error error ∧ after = state ∧
        ((∃ cause, (loadWords host source features).run state = (.error cause, state)) ∨
          ∃ words, (loadWords host source features).run state = (.ok words, state) ∧
            ((∃ cause, (generator.build words).result = .error cause) ∨
              ∃ tree cause, (generator.build words).result = .ok tree ∧ output ≠ "-" ∧
                (host.write output (Text.encode (generator.render tree))).run state = (.error cause, state)))) ∨
      ∃ generated words tree, logged.result = .ok generated ∧
        (loadWords host source features).run state = (.ok words, state) ∧
        (generator.build words).result = .ok tree ∧
        (output = "-" ∧ view.Prints state (generator.render tree) after ∨
          output ≠ "-" ∧ ∃ site, view.site? state output = some site ∧
            view.Replaces state site (Text.encode (generator.render tree)) after) ∧
        generated.output = output ∧ generated.bytes = (Text.encode (generator.render tree)).length ∧
        generated.words = words.length ∧ generated.census = tree.census) := by
  have hend := runGenerate_generates host view generator output source features state hh
  generalize (runGenerate host generator output source features).run state = run at hend ⊢
  obtain ⟨⟨events, result⟩, after⟩ := run
  refine ⟨_, after, rfl, ?_⟩
  cases hend with
  | unloaded hload => exact .inl ⟨_, rfl, rfl, .inl ⟨_, hload⟩⟩
  | unbuilt hload hbuild => exact .inl ⟨_, rfl, rfl, .inr ⟨_, hload, .inl ⟨_, hbuild⟩⟩⟩
  | unwritten hload hbuild hfile hwrite =>
    exact .inl ⟨_, rfl, rfl, .inr ⟨_, hload, .inr ⟨_, _, hbuild, hfile, hwrite⟩⟩⟩
  | printed hload hbuild hstandard hprints =>
    exact .inr ⟨_, _, _, rfl, hload, hbuild, .inl ⟨hstandard, hprints⟩, generator.report_counts hbuild output⟩
  | written hload hbuild hfile hsite hreplaces =>
    exact .inr ⟨_, _, _, rfl, hload, hbuild, .inr ⟨hfile, _, hsite, hreplaces⟩,
      generator.report_counts hbuild output⟩

/-- The words `hi` and `us`. -/
def hiUs : List Word := [⟨0, [104, 105], by decide, by decide⟩, ⟨1, [117, 115], by decide, by decide⟩]

/-- A list of them beside another file, and a folder outside the working directory. -/
def listWorld : World where
  directory := [("words", .file (Text.encode "hi\nus\n")), ("notes", .file [1, 2, 3]), ("/tmp", .folder)]

/-- Maps from paths to items and worlds are such surroundings. Here the text replaces the list
that it is made from, or is a new file in a folder outside, reached from the root or through
the folder above. -/
theorem runGenerate_all_or_nothing_listWorld : (∀ refusal?, (Host.ofMap refusal?).Atomic View.ofMap) ∧
    (World.host ["work"]).Atomic (World.view ["work"]) ∧
    ∀ output ∈ [("words", "words"), ("/tmp/tree", "/tmp/tree"), ("../tmp//tree", "/tmp/tree")],
      ∃ logged after tree,
        (runGenerate (World.host ["work"]) {} output.1 "words" []).run listWorld = (logged, after) ∧
        (({} : Generator).build hiUs).result = .ok tree ∧ after.printed = "" ∧
        after.directory.itemAt? ["work"] output.2 = some (.file (Text.encode (({} : Generator).render tree))) ∧
        after.directory.itemAt? ["work"] "notes" = some (.file [1, 2, 3]) := by
  have hhost : (World.host ["work"]).Atomic (World.view ["work"]) := World.host_atomic (by simp)
  have hwords : ((loadWords (World.host ["work"]) "words" []).run listWorld).1 = .ok hiUs := by decide +kernel
  obtain ⟨tree, htree⟩ := exists_build {} (by decide : hiUs ≠ []) (by decide +kernel)
  have htargets : ∀ output ∈ [("words", "words"), ("/tmp/tree", "/tmp/tree"), ("../tmp//tree", "/tmp/tree")],
      output.1 ≠ "-" ∧ listWorld.directory.target ["work"] output.1 = .ok output.2 ∧ "notes" ≠ output.2 := by
    decide +kernel
  refine ⟨Host.ofMap_atomic, hhost, fun output houtput => ?_⟩
  obtain ⟨hpath, htarget, hnotes⟩ := htargets output houtput
  obtain ⟨logged, after, hrun, hend⟩ := runGenerate_all_or_nothing hhost {} output.1 "words" [] listWorld
  -- The list loads, has a tree and the file can be written, so nothing is left to fail.
  rcases hend with ⟨_, _, _, ⟨cause, hload⟩ | ⟨words, hload, hfail⟩⟩ | ⟨_, words, _, _, hload, hbuild, hplace, _⟩
  · rw [hload] at hwords
    cases hwords
  · rw [hload] at hwords
    obtain rfl : words = hiUs := Except.ok.inj hwords
    rcases hfail with ⟨cause, hbuild⟩ | ⟨_, cause, _, _, hwrite⟩
    · cases hbuild.symm.trans htree
    · cases hwrite.symm.trans (World.host_write_ok htarget _)
  · rw [hload] at hwords
    obtain rfl : words = hiUs := Except.ok.inj hwords
    rcases hplace with ⟨hstandard, _⟩ | ⟨_, site, hsite, hreplaces⟩
    · exact absurd hstandard hpath
    · obtain rfl : output.2 = site := Option.some.inj ((congrArg Except.toOption htarget).symm.trans hsite)
      have hkept : (World.view ["work"]).item? listWorld "notes" = some (.file [1, 2, 3]) := by decide +kernel
      exact ⟨logged, after, _, hrun, hbuild, hreplaces.quiet, hreplaces.file,
        (hreplaces.frame "notes" hnotes).trans hkept⟩

end KeywordTree
