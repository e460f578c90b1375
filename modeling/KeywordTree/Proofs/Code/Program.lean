import KeywordTree.Proofs.Code.Run
import KeywordTree.Proofs.Growth

/-! The program of a decision tree. On every candidate it ends in the verdict of the tree,
without entering one case from another or reading past the end. -/
namespace KeywordTree
open Code

def Outcome.verdict : Outcome → Verdict
  | accepted word => .matched word.index
  | guessed word => .guessed word.index
  | rejected => .rejected

def Check.test (check : Check) : Test := ⟨.column check.column, check.expected.toNat⟩

mutual

def Node.program : Node → List Stmt
  | .dispatch subject .switch arms otherwise => .switch subject (caseBodies arms) :: otherwise.program
  | .dispatch subject .ifChain arms otherwise => chainProgram subject arms ++ otherwise.program
  | .verify checks word otherwise =>
    .ifAll (checks.map Check.test) [.exit (.matched word.index)] :: otherwise.program
  | .accept word => [.exit (.matched word.index)]
  | .guess word _ => [.exit (.guessed word.index)]
  | .reject => [.exit .rejected]

def caseBodies : List (Nat × Node) → List (Nat × List Stmt)
  | [] => []
  | (key, node) :: rest => (key, node.program) :: caseBodies rest

def chainProgram (subject : Subject) : List (Nat × Node) → List Stmt
  | [] => []
  | (key, node) :: rest => .ifAll [⟨subject, key⟩] node.program :: chainProgram subject rest

end

/-- The program of a node runs as the node is followed. -/
def Node.Faithful (candidate : Candidate) (node : Node) : Prop :=
  (runBlock candidate node.program).Leads candidate (.ended (node.evaluate candidate).verdict)

variable {candidate : Candidate}

private theorem runBlock_exit (verdict : Verdict) :
    (runBlock candidate [.exit verdict]).Leads candidate (.ended verdict) := .stop (.exit verdict) _

/-- The cases of a switch lead to the outcome of the arm with the key that is read, or
past the switch. -/
theorem runCases_caseBodies {key : Nat} {arms : List (Nat × Node)}
    (ha : ∀ arm ∈ arms, arm.1 = key → arm.2.Faithful candidate) :
    (runCases candidate key (caseBodies arms)).Leads candidate
      (match evaluateArm candidate key arms with
        | some outcome => .ended outcome.verdict
        | none => .next) := by
  induction arms with
  | nil => exact .idle
  | cons arm rest ih =>
    obtain ⟨label, node⟩ := arm
    rw [caseBodies, runCases, evaluateArm]
    by_cases he : label = key
    · rw [if_pos he, if_pos he]
      exact .stop (ha _ List.mem_cons_self he) _
    · rw [if_neg he, if_neg he]
      exact ih fun arm hm => ha arm (List.mem_cons_of_mem _ hm)

/-- The tests of a chain lead to the outcome of the arm with the key that is read, or to
what follows the chain. -/
theorem runBlock_chainProgram {subject : Subject} {key : Nat} (hr : subject.read candidate = some key)
    {arms : List (Nat × Node)} (ha : ∀ arm ∈ arms, arm.1 = key → arm.2.Faithful candidate)
    {following : List Stmt} {verdict : Verdict}
    (hf : (runBlock candidate following).Leads candidate (.ended verdict)) :
    (runBlock candidate (chainProgram subject arms ++ following)).Leads candidate
      (match evaluateArm candidate key arms with
        | some outcome => .ended outcome.verdict
        | none => .ended verdict) := by
  induction arms with
  | nil => exact hf
  | cons arm rest ih =>
    obtain ⟨label, node⟩ := arm
    rw [chainProgram, List.cons_append, runBlock, Stmt.run, runTests, evaluateArm]
    by_cases he : label = key
    · rw [if_pos he]
      refine .stop (.onRead hr ?_) _
      rw [if_pos he.symm]
      exact ha _ List.mem_cons_self he
    · rw [if_neg he]
      refine .andThen (.onRead hr ?_) (ih fun arm hm => ha arm (List.mem_cons_of_mem _ hm))
      rw [if_neg (Ne.symm he)]
      exact .idle

namespace Node.Faithful

theorem dispatch {subject : Subject} {key : Nat} (hr : subject.read candidate = some key) (mode : Mode)
    {arms : List (Nat × Node)} (ha : ∀ arm ∈ arms, arm.1 = key → arm.2.Faithful candidate)
    {otherwise : Node} (ho : otherwise.Faithful candidate) :
    (Node.dispatch subject mode arms otherwise).Faithful candidate := by
  have hverdict : (Node.dispatch subject mode arms otherwise).evaluate candidate =
      (evaluateArm candidate key arms).getD (otherwise.evaluate candidate) := by
    simp only [Node.evaluate, hr]
    cases evaluateArm candidate key arms <;> rfl
  rw [Faithful, hverdict]
  cases mode with
  | switch =>
    have hcases := runCases_caseBodies ha
    rw [program, runBlock, Stmt.run]
    cases hm : evaluateArm candidate key arms with
    | some outcome =>
      rw [hm] at hcases
      exact .stop (.onRead hr hcases) _
    | none =>
      rw [hm] at hcases
      exact .andThen (.onRead hr hcases) ho
  | ifChain =>
    have hchain := runBlock_chainProgram hr ha ho
    rw [program]
    cases hm : evaluateArm candidate key arms <;> rw [hm] at hchain <;> exact hchain

theorem verify {checks : List Check} (hr : ∀ check ∈ checks, check.column < candidate.length) (word : Word)
    {otherwise : Node} (ho : otherwise.Faithful candidate) :
    (Node.verify checks word otherwise).Faithful candidate := by
  have hread : ∀ test ∈ checks.map Check.test, (test.subject.read candidate).isSome := by
    intro test hm
    obtain ⟨check, hc, rfl⟩ := List.mem_map.mp hm
    simpa [Check.test, Subject.read] using hr check hc
  have hholds : (∀ test ∈ checks.map Check.test, test.subject.read candidate = some test.value) ↔
      checks.all (Check.holds candidate) = true := by
    simp only [List.all_eq_true, List.forall_mem_map]
    refine forall₂_congr fun check _ => ?_
    simp [Check.test, Subject.read, Check.holds, Option.map_eq_some_iff, UInt8.toNat_inj]
  have htests := Run.Leads.runTests (runBlock_exit (.matched word.index)) hread
  rw [Faithful, program, runBlock, Stmt.run, evaluate]
  by_cases hall : checks.all (Check.holds candidate) = true
  · rw [if_pos (hholds.mpr hall)] at htests
    rw [if_pos hall]
    exact .stop htests _
  · rw [if_neg (mt hholds.mp hall)] at htests
    rw [if_neg hall]
    exact .andThen htests ho

end Node.Faithful

/-- Below the test of the length every column that is read exists. -/
theorem Grown.faithful {config : Config} {words : List Word} {columns : Columns} {node : Node}
    (h : Grown config words columns node) (hf : Fits candidate.length words columns) :
    node.Faithful candidate := by
  induction h with
  | accept _ => exact runBlock_exit _
  | guess _ => exact runBlock_exit _
  | @verify word columns checks _ _ hc =>
    refine .verify (fun check hm => ?_) word (runBlock_exit _)
    have hcolumn : check.column ∈ columns.pending := (checks_inv hc).1 ▸ List.mem_map_of_mem hm
    rw [← hf.length_eq word List.mem_cons_self]
    exact hf.pending_lt hcolumn word List.mem_cons_self
  | @dispatch words columns remaining choice arms _ hc hr hk _ ih =>
    have hlt : choice.column < candidate.length := by
      obtain ⟨word, hw⟩ := List.exists_mem_of_ne_nil words hf.nonempty
      rw [← hf.length_eq word hw]
      exact hf.chosen_lt hc hr word hw
    have hread : (Subject.column choice.column).read candidate = some (candidate[choice.column].toNat) := by
      simp [Subject.read, hlt]
    exact .dispatch hread _ (fun arm harm _ => ih arm harm (hf.arm hc hr hk harm)) (runBlock_exit _)

theorem build_faithful {config : Config} {corpus : List Word} {tree : Tree}
    (h : (build config corpus).result = .ok tree) (candidate : Candidate) : tree.root.Faithful candidate := by
  obtain ⟨_, _, arms, hroot, _, hg⟩ := build_inv h
  rw [hroot]
  refine .dispatch rfl _ (fun arm harm he => ?_) (runBlock_exit _)
  obtain ⟨hfits, hgrown⟩ := hg arm harm
  exact hgrown.faithful (he ▸ hfits)

end KeywordTree
