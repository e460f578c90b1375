import KeywordTree.Proofs.Growth
import KeywordTree.Proofs.Routes

/-! What the leaves of a built tree have tested. The columns dispatched on along the way
to a leaf and those left to it are together the columns of its word, each once. -/
namespace KeywordTree

/-- What a leaf does about the columns that the way to it leaves untested. -/
def Leaf.Covers (config : Config) (word : Word) (untested : List Nat) : Leaf → Prop
  | accept => untested = []
  | verify checks => untested ≠ [] ∧ untested.length ≤ config.tailThreshold ∧
      checks.map Check.column = untested ∧ ∀ check ∈ checks, word.letters[check.column]? = some check.expected
  | guess unverified => unverified = untested.length ∧ config.tailThreshold < unverified

/-- A way from a node with these words and pending columns to a leaf of one of the words. -/
structure Route.Sound (config : Config) (words : List Word) (pending : List Nat) (route : Route) : Prop where
  mem : route.word ∈ words
  steps : ∀ step ∈ route.steps, ∃ column key,
    step = .arm (.column column) key ∧ route.word.codeAt? column = some key
  covers : ∃ untested, (route.columns ++ untested).Perm pending ∧ route.leaf.Covers config route.word untested

namespace Grown

variable {config : Config} {words : List Word} {columns : Columns} {node : Node}

theorem orderly (h : Grown config words columns node) : node.Orderly := by
  induction h with
  | accept _ => exact .accept _
  | guess _ => exact .guess _ _
  | verify _ _ _ => exact .verify .reject
  | dispatch _ _ _ hk _ ih =>
    refine .dispatch ?_ ih .reject
    rw [hk]
    exact nodup_ascending _

theorem words_perm (h : Grown config words columns node) : (node.routes.map Route.word).Perm words := by
  induction h with
  | accept _ => exact List.Perm.refl _
  | guess _ => exact List.Perm.refl _
  | verify _ _ _ => exact List.Perm.refl _
  | @dispatch words _ _ choice arms _ _ _ hk _ ih =>
    have hw : (Node.dispatch (.column choice.column) choice.mode arms .reject).routes.map Route.word =
        arms.flatMap fun arm => arm.2.routes.map Route.word := by
      simp [Node.routes, armRoutes_eq_flatMap, List.map_flatMap, Function.comp_def]
    rw [hw]
    exact flatMap_arms_perm hk ih

theorem sound (h : Grown config words columns node) {length : Nat} (hf : Fits length words columns) :
    ∀ route ∈ node.routes, route.Sound config words columns.pending := by
  induction h with
  | @accept word columns hp =>
    intro route hm
    obtain rfl := List.mem_singleton.mp hm
    exact ⟨List.mem_cons_self, by simp, [], by simp [Route.columns, hp], rfl⟩
  | @guess word columns hp =>
    intro route hm
    obtain rfl := List.mem_singleton.mp hm
    exact ⟨List.mem_cons_self, by simp, columns.pending, by simp [Route.columns], rfl, hp⟩
  | @verify word columns checks hne hp hc =>
    intro route hm
    obtain rfl := List.mem_singleton.mp hm
    exact ⟨List.mem_cons_self, by simp, columns.pending, by simp [Route.columns], hne, hp, checks_inv hc⟩
  | @dispatch words columns remaining choice arms _ hc hr hk _ ih =>
    intro route hm
    obtain ⟨arm, ha, below, hb, rfl⟩ : ∃ arm ∈ arms, ∃ below ∈ arm.2.routes,
        below.after (.arm (.column choice.column) arm.1) = route := by
      simpa [Node.routes, mem_armRoutes] using hm
    obtain ⟨hmem, hsteps, untested, hperm, hleaf⟩ := ih arm ha (hf.arm hc hr hk ha) below hb
    obtain ⟨hword, hcode⟩ := mem_groupOf.mp hmem
    refine ⟨hword, ?_, untested, ?_, hleaf⟩
    · intro step hstep
      rcases List.mem_cons.mp hstep with rfl | hstep
      · refine ⟨choice.column, arm.1, rfl, ?_⟩
        rw [← hcode]
        exact codeAt?_eq_some (hf.chosen_lt hc hr _ hword)
      · exact hsteps step hstep
    · -- The column spent here and those pending below are the ones pending here.
      obtain ⟨column, hcol, _, hmoved⟩ := Columns.consume_inv hr
      obtain rfl : choice.column = column := Option.some.inj ((hf.chosen hc hr).symm.trans hcol)
      exact (hperm.cons choice.column).trans hmoved

end Grown

section Built

variable {config : Config} {corpus : List Word} {tree : Tree}

theorem build_orderly (h : (build config corpus).result = .ok tree) : tree.root.Orderly := by
  obtain ⟨_, _, arms, hroot, hk, hg⟩ := build_inv h
  rw [hroot]
  refine .dispatch ?_ (fun arm ha => (hg arm ha).2.orderly) .reject
  rw [hk]
  exact nodup_ascending _

/-- The leaves of a built tree carry the words of its corpus, each entry once. -/
theorem build_words_perm (h : (build config corpus).result = .ok tree) :
    (tree.root.routes.map Route.word).Perm corpus := by
  obtain ⟨_, _, arms, hroot, hk, hg⟩ := build_inv h
  have hw : tree.root.routes.map Route.word = arms.flatMap fun arm => arm.2.routes.map Route.word := by
    simp [hroot, Node.routes, armRoutes_eq_flatMap, List.map_flatMap, Function.comp_def]
  rw [hw]
  exact (flatMap_arms_perm hk fun arm ha => (hg arm ha).2.words_perm).trans (canonical_perm corpus)

/-- The way to a leaf tests the length first and then columns of that length. -/
theorem build_route (h : (build config corpus).result = .ok tree) {route : Route} (hm : route ∈ tree.root.routes) :
    ∃ below : Route, route = below.after (.arm .length below.word.length) ∧
      below.Sound config corpus (List.range below.word.length) := by
  obtain ⟨_, _, arms, hroot, _, hg⟩ := build_inv h
  obtain ⟨arm, ha, below, hb, rfl⟩ : ∃ arm ∈ arms, ∃ below ∈ arm.2.routes,
      below.after (.arm .length arm.1) = route := by
    simpa [hroot, Node.routes, mem_armRoutes] using hm
  obtain ⟨hfits, hgrown⟩ := hg arm ha
  have hs := hgrown.sound hfits below hb
  obtain ⟨hword, hlen⟩ := mem_groupOf.mp hs.mem
  refine ⟨below, by rw [hlen], (canonical_perm corpus).mem_iff.mp hword, hs.steps, ?_⟩
  rw [hlen]
  exact hs.covers

end Built

section Exactness

variable {config : Config} {words : List Word} {word : Word} {route : Route} {candidate : Candidate}

private theorem map_toNat_inj {a b : Option UInt8} (h : a.map UInt8.toNat = b.map UInt8.toNat) : a = b :=
  Option.map_injective (fun _ _ he => UInt8.toNat_inj.mp he) h

/-- Taking the steps to a leaf is agreeing with its word on the columns dispatched on. -/
theorem Route.Sound.taken_iff {pending : List Nat} (hs : route.Sound config words pending) :
    (∀ step ∈ route.steps, step.Taken candidate) ↔
      ∀ k ∈ route.columns, candidate[k]? = route.word.letters[k]? := by
  constructor
  · intro h k hk
    obtain ⟨step, hm, hc⟩ := List.mem_filterMap.mp hk
    obtain ⟨column, key, rfl, hcode⟩ := hs.steps step hm
    obtain rfl : column = k := Option.some.inj hc
    exact map_toNat_inj ((h _ hm).trans hcode.symm)
  · intro h step hm
    obtain ⟨column, key, rfl, hcode⟩ := hs.steps step hm
    have hk : column ∈ route.columns := List.mem_filterMap.mpr ⟨_, hm, rfl⟩
    change candidate[column]?.map UInt8.toNat = some key
    rw [h column hk]
    exact hcode

theorem Leaf.Covers.holds_iff {leaf : Leaf} {untested : List Nat} (hc : leaf.Covers config word untested)
    (hg : ∀ n, leaf ≠ .guess n) :
    leaf.Holds candidate ↔ ∀ k ∈ untested, candidate[k]? = word.letters[k]? := by
  cases leaf with
  | accept =>
    obtain rfl : untested = [] := hc
    simp [Leaf.Holds]
  | verify checks =>
    obtain ⟨_, _, rfl, hexp⟩ := hc
    simp only [Leaf.Holds, List.all_eq_true, Check.holds, beq_iff_eq, List.forall_mem_map]
    exact forall₂_congr fun check hm => by rw [hexp check hm]
  | guess n => exact absurd rfl (hg n)

theorem eq_letters_iff : candidate = word.letters ↔
    candidate.length = word.length ∧ ∀ k ∈ List.range word.length, candidate[k]? = word.letters[k]? := by
  constructor
  · rintro rfl
    exact ⟨rfl, fun _ _ => rfl⟩
  · rintro ⟨hlen, h⟩
    apply List.ext_getElem?
    intro k
    by_cases hk : k < word.length
    · exact h k (List.mem_range.mpr hk)
    · rw [List.getElem?_eq_none (by omega), List.getElem?_eq_none (Nat.le_of_not_lt hk)]

theorem Route.Sound.accepts_iff_eq (hs : route.Sound config words (List.range route.word.length))
    (hg : ∀ n, route.leaf ≠ .guess n) :
    (route.after (.arm .length route.word.length)).Accepts candidate ↔ candidate = route.word.letters := by
  obtain ⟨untested, hperm, hcov⟩ := hs.covers
  rw [Route.accepts_after, Route.Accepts, hs.taken_iff, hcov.holds_iff hg, ← List.forall_mem_append, eq_letters_iff]
  refine and_congr (by simp [Step.Taken, Subject.read]) ?_
  exact forall_congr' fun k => by rw [hperm.mem_iff]

theorem Route.Sound.accepts_guess_iff (hs : route.Sound config words (List.range route.word.length))
    {n : Nat} (hg : route.leaf = .guess n) :
    (route.after (.arm .length route.word.length)).Accepts candidate ↔
      candidate.length = route.word.length ∧ ∀ k ∈ route.columns, candidate[k]? = route.word.letters[k]? := by
  rw [Route.accepts_after, Route.Accepts, hs.taken_iff, hg]
  simp [Step.Taken, Subject.read, Leaf.Holds]

end Exactness

end KeywordTree
