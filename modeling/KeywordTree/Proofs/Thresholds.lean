import KeywordTree.Proofs.Recognition

/-! What the tail threshold changes. Two trees of one corpus whose thresholds for tails
differ have the same dispatches; the greater threshold turns guesses into comparisons and
does nothing else. So it can only take wrong acceptances away, and a threshold that no word
is longer than leaves none. -/
namespace KeywordTree

/-- The second tree compares where the first guesses, for tails of more than `low` and at
most `high` columns. In all else the two are the same. -/
inductive Node.Tightens (low high : Nat) : Node → Node → Prop where
  | dispatch {subject : Subject} {mode : Mode} {arms arms' : List (Nat × Node)} {otherwise otherwise' : Node}
    (hk : arms.map Prod.fst = arms'.map Prod.fst)
    (ha : ∀ pair ∈ arms.zip arms', Node.Tightens low high pair.1.2 pair.2.2)
    (ho : Node.Tightens low high otherwise otherwise') :
    Node.Tightens low high (.dispatch subject mode arms otherwise) (.dispatch subject mode arms' otherwise')
  | verify {checks : List Check} {word : Word} {otherwise otherwise' : Node}
    (ho : Node.Tightens low high otherwise otherwise') :
    Node.Tightens low high (.verify checks word otherwise) (.verify checks word otherwise')
  | accept (word : Word) : Node.Tightens low high (.accept word) (.accept word)
  | guess {word : Word} {unverified : Nat} (h : high < unverified) :
    Node.Tightens low high (.guess word unverified) (.guess word unverified)
  | compare {word : Word} {checks : List Check} (hl : low < checks.length) (hh : checks.length ≤ high)
    (hc : ∀ check ∈ checks, word.letters[check.column]? = some check.expected) :
    Node.Tightens low high (.guess word checks.length) (.verify checks word .reject)
  | reject : Node.Tightens low high .reject .reject

/-- What becomes of an outcome: only a guess can change, to the acceptance of the same
word or to a rejection. -/
inductive Outcome.Tightens : Outcome → Outcome → Prop where
  | same (outcome : Outcome) : Outcome.Tightens outcome outcome
  | accept (word : Word) : Outcome.Tightens (.guessed word) (.accepted word)
  | reject (word : Word) : Outcome.Tightens (.guessed word) .rejected

namespace Outcome.Tightens

variable {a b : Outcome} {word : Word}

theorem rejected (h : a.Tightens b) (ha : a = .rejected) : b = .rejected := by
  cases h with
  | same => exact ha
  | accept | reject => cases ha

theorem accepted (h : a.Tightens b) (ha : a = .accepted word) : b = .accepted word := by
  cases h with
  | same => exact ha
  | accept | reject => cases ha

theorem guessed (h : a.Tightens b) (hb : b = .guessed word) : a = .guessed word := by
  cases h with
  | same => exact hb
  | accept | reject => cases hb

end Outcome.Tightens

section Arms

variable {arms arms' : List (Nat × Node)}

private theorem fst_eq_of_mem_zip (hk : arms.map Prod.fst = arms'.map Prod.fst) {pair : (Nat × Node) × (Nat × Node)}
    (hp : pair ∈ arms.zip arms') : pair.1.1 = pair.2.1 := by
  induction arms generalizing arms' with
  | nil => cases hp
  | cons first rest ih =>
    cases arms' with
    | nil => cases hp
    | cons first' rest' =>
      obtain ⟨hfirst, hrest⟩ := List.cons.inj hk
      rcases List.mem_cons.mp hp with rfl | hp
      · exact hfirst
      · exact ih hrest hp

theorem Node.Tightens.of_arms {low high : Nat} {subject : Subject} {mode : Mode}
    (hk : arms.map Prod.fst = arms'.map Prod.fst)
    (h : ∀ arm ∈ arms, ∀ arm' ∈ arms', arm.1 = arm'.1 → arm.2.Tightens low high arm'.2) :
    Node.Tightens low high (.dispatch subject mode arms .reject) (.dispatch subject mode arms' .reject) := by
  apply Node.Tightens.dispatch hk _ .reject
  intro pair hp
  obtain ⟨hmem, hmem'⟩ := List.of_mem_zip hp
  exact h pair.1 hmem pair.2 hmem' (fst_eq_of_mem_zip hk hp)

theorem evaluateArm_rel {candidate : Candidate} {key : Nat} {rel : Outcome → Outcome → Prop}
    (hk : arms.map Prod.fst = arms'.map Prod.fst)
    (ha : ∀ pair ∈ arms.zip arms', rel (pair.1.2.evaluate candidate) (pair.2.2.evaluate candidate)) :
    Option.Rel rel (evaluateArm candidate key arms) (evaluateArm candidate key arms') := by
  induction arms generalizing arms' with
  | nil =>
    obtain rfl := List.map_eq_nil_iff.mp hk.symm
    exact .none
  | cons first rest ih =>
    cases arms' with
    | nil => cases hk
    | cons first' rest' =>
      obtain ⟨hfirst, hrest⟩ := List.cons.inj hk
      obtain ⟨key', node⟩ := first
      obtain ⟨_, node'⟩ := first'
      cases hfirst
      rw [evaluateArm, evaluateArm]
      split
      · exact .some (ha _ List.mem_cons_self)
      · apply ih hrest
        intro pair hp
        exact ha pair (List.mem_cons_of_mem _ hp)

end Arms

/-- Following the two trees with one candidate takes one way, up to a guess. -/
theorem Node.Tightens.evaluate {low high : Nat} {a b : Node} (h : a.Tightens low high b) (candidate : Candidate) :
    (a.evaluate candidate).Tightens (b.evaluate candidate) := by
  induction h with
  | @dispatch subject _ arms arms' _ _ hk _ _ iha iho =>
    rw [Node.evaluate, Node.evaluate]
    cases subject.read candidate with
    | none => exact iho
    | some key =>
      have harm : Option.Rel Outcome.Tightens (evaluateArm candidate key arms) (evaluateArm candidate key arms') :=
        evaluateArm_rel hk iha
      dsimp only
      generalize evaluateArm candidate key arms = taken at harm ⊢
      generalize evaluateArm candidate key arms' = taken' at harm ⊢
      cases harm with
      | none => exact iho
      | some h => exact h
  | @verify checks _ _ _ _ iho =>
    rw [Node.evaluate, Node.evaluate]
    split
    · exact .same _
    · exact iho
  | accept word => exact .same _
  | guess _ => exact .same _
  | @compare word checks _ _ _ =>
    rw [Node.evaluate, Node.evaluate]
    split
    · exact .accept word
    · exact .reject word
  | reject => exact .same _

section Builds

variable {low high : Config} {words : List Word} {columns : Columns} {a b : Node}

theorem choose_eq_of_ifThreshold (hif : low.ifThreshold = high.ifThreshold) (words : List Word) (pending : List Nat) :
    choose low words pending = choose high words pending := by
  unfold choose
  rw [hif]

theorem length_checks {word : Word} {pending : List Nat} {checks : List Check} (h : word.checks pending = .ok checks) :
    checks.length = pending.length := by
  rw [← (checks_inv h).1, List.length_map]

/-- Two constructions from the same words and columns go the same way down to the leaves. -/
theorem Grown.tightens (hif : low.ifThreshold = high.ifThreshold) (ht : low.tailThreshold ≤ high.tailThreshold)
    (ha : Grown low words columns a) (hb : Grown high words columns b) :
    a.Tightens low.tailThreshold high.tailThreshold b := by
  induction ha generalizing b with
  | @accept word columns hp =>
    cases hb with
    | accept => exact .accept word
    | guess hlt => simp [hp] at hlt
    | verify hne => exact absurd hp hne
    | dispatch hw => simp at hw
  | @guess word columns hlow =>
    cases hb with
    | accept hp => simp [hp] at hlow
    | guess hhigh => exact .guess hhigh
    | verify _ hle hc =>
      -- The one place where the two constructions part.
      rw [← length_checks hc] at hlow hle ⊢
      exact .compare hlow hle (checks_inv hc).2
    | dispatch hw => simp at hw
  | @verify word columns checks hne hle hc =>
    cases hb with
    | accept hp => exact absurd hp hne
    | guess hhigh => omega
    | @verify _ _ checks' _ _ hc' =>
      obtain rfl : checks = checks' := Except.ok.inj (hc.symm.trans hc')
      exact .verify .reject
    | dispatch hw => simp at hw
  | @dispatch words columns remaining choice arms hw hc hr hk _ ih =>
    cases hb with
    | accept => simp at hw
    | guess => simp at hw
    | verify => simp at hw
    | @dispatch _ _ remaining' choice' arms' _ hc' hr' hk' hg' =>
      rw [choose_eq_of_ifThreshold hif] at hc
      obtain rfl : choice = choice' := Except.ok.inj (hc.symm.trans hc')
      obtain rfl : remaining = remaining' := Except.ok.inj (hr.symm.trans hr')
      apply Node.Tightens.of_arms (hk.trans hk'.symm)
      intro arm hm arm' hm' hkey
      apply ih arm hm
      rw [hkey]
      exact hg' arm' hm'

theorem build_tightens (hif : low.ifThreshold = high.ifThreshold) (ht : low.tailThreshold ≤ high.tailThreshold)
    {corpus : List Word} {tree tree' : Tree} (h : (build low corpus).result = .ok tree)
    (h' : (build high corpus).result = .ok tree') :
    tree.root.Tightens low.tailThreshold high.tailThreshold tree'.root := by
  obtain ⟨_, _, arms, hroot, hk, hg⟩ := build_inv h
  obtain ⟨_, _, arms', hroot', hk', hg'⟩ := build_inv h'
  have hmode (n : Nat) : low.lengthMode n = high.lengthMode n := by
    rw [Config.lengthMode, Config.lengthMode, hif]
  rw [hroot, hroot', hmode]
  apply Node.Tightens.of_arms (hk.trans hk'.symm)
  intro arm hm arm' hm' hkey
  apply (hg arm hm).2.tightens hif ht
  rw [hkey]
  exact (hg' arm' hm').2

end Builds

section Exact

variable {config : Config} {corpus : List Word} {tree : Tree}

theorem leaf_ne_guess (h : (build config corpus).result = .ok tree)
    (hl : ∀ word ∈ corpus, word.length ≤ config.tailThreshold) {route : Route} (hm : route ∈ tree.root.routes)
    (n : Nat) : route.leaf ≠ .guess n := by
  intro hn
  obtain ⟨hcount, hlt⟩ := unverified_add_card h hm hn
  have hword := hl route.word ((build_words_perm h).mem_iff.mp (List.mem_map_of_mem hm))
  omega

theorem guessed?_eq_none (h : (build config corpus).result = .ok tree)
    (hl : ∀ word ∈ corpus, word.length ≤ config.tailThreshold) {node : Node} (hn : node ∈ tree.nodes) :
    node.guessed? = none := by
  cases node with
  | guess word n =>
    obtain ⟨entry, hentry, he⟩ := List.mem_map.mp hn
    have hleaf : (word, Leaf.guess n) ∈ tree.root.routes.map fun route => (route.word, route.leaf) := by
      rw [← Node.filterMap_leaf?_preorder 0]
      exact List.mem_filterMap.mpr ⟨entry, hentry, by rw [he]; rfl⟩
    obtain ⟨route, hm, hr⟩ := List.mem_map.mp hleaf
    exact absurd (Prod.mk.inj hr).2 (leaf_ne_guess h hl hm n)
  | _ => rfl

theorem evaluate_exact (h : (build config corpus).result = .ok tree)
    (hl : ∀ word ∈ corpus, word.length ≤ config.tailThreshold) (candidate : Candidate) :
    (∀ word ∈ corpus, tree.evaluate candidate = .accepted word ↔ candidate = Text.encode word.text) ∧
      ((∀ word ∈ corpus, candidate ≠ Text.encode word.text) → tree.evaluate candidate = .rejected) := by
  have haccepted (word : Word) (hw : word ∈ corpus) :
      tree.evaluate candidate = .accepted word ↔ candidate = Text.encode word.text := by
    obtain ⟨route, hu⟩ := exists_unique_route h hw
    rw [evaluate_eq_accepted_iff h hu, Word.encode_text]
    exact and_iff_right (leaf_ne_guess h hl (route_of_filter hu).1)
  refine ⟨haccepted, fun hne => ?_⟩
  rcases evaluate_cases h candidate with hr | ⟨word, hw, hg | ha⟩
  · exact hr
  · obtain ⟨route, hu⟩ := exists_unique_route h hw
    obtain ⟨n, hn⟩ := ((evaluate_eq_guessed_iff h hu).mp hg).1
    exact absurd hn (leaf_ne_guess h hl (route_of_filter hu).1 n)
  · exact absurd ((haccepted word hw).mp ha) (hne word hw)

end Exact

/-- The tail threshold is monotone. Under a greater one the same tree is built but for
guesses that become comparisons: what was rejected stays rejected, what was accepted for
certain stays accepted, and what is still guessed was guessed before. Once no word is
longer than the threshold, nothing is guessed and the outcome is exact. -/
theorem build_tail_monotone {low high : Config} (hif : low.ifThreshold = high.ifThreshold)
    (ht : low.tailThreshold ≤ high.tailThreshold) {corpus : List Word} (hne : corpus ≠ [])
    (hd : (corpus.map Word.text).Nodup) :
    ∃ a b, (build low corpus).result = .ok a ∧ (build high corpus).result = .ok b ∧
      a.root.Tightens low.tailThreshold high.tailThreshold b.root ∧
      (∀ candidate, (a.evaluate candidate = .rejected → b.evaluate candidate = .rejected) ∧
        ∀ word, (a.evaluate candidate = .accepted word → b.evaluate candidate = .accepted word) ∧
          (b.evaluate candidate = .guessed word → a.evaluate candidate = .guessed word)) ∧
      ((∀ word ∈ corpus, word.length ≤ high.tailThreshold) →
        (∀ node ∈ b.nodes, node.guessed? = none) ∧ ∀ candidate,
          (∀ word ∈ corpus, b.evaluate candidate = .accepted word ↔ candidate = Text.encode word.text) ∧
          ((∀ word ∈ corpus, candidate ≠ Text.encode word.text) → b.evaluate candidate = .rejected)) := by
  obtain ⟨a, ha⟩ := exists_build low hne hd
  obtain ⟨b, hb⟩ := exists_build high hne hd
  have hroot := build_tightens hif ht ha hb
  refine ⟨a, b, ha, hb, hroot, ?_, ?_⟩
  · intro candidate
    have hout := hroot.evaluate candidate
    exact ⟨hout.rejected, fun word => ⟨hout.accepted, hout.guessed⟩⟩
  · intro hl
    exact ⟨fun node hn => guessed?_eq_none hb hl hn, evaluate_exact hb hl⟩

/-- With tails up to two letters compared, `ox` is no longer taken for `on`. -/
theorem build_tail_monotone_ox : ifOn ≠ [] ∧ (ifOn.map Word.text).Nodup ∧ (∀ word ∈ ifOn, word.length ≤ 2) ∧
    ∃ a b, (build ⟨3, 0, 1⟩ ifOn).result = .ok a ∧ (build ⟨3, 2, 1⟩ ifOn).result = .ok b ∧
      a.root.Tightens 0 2 b.root ∧ (a.evaluate [111, 120]).index? = some 1 ∧ b.evaluate [111, 120] = .rejected := by
  have hne : ifOn ≠ [] := by decide
  have hd : (ifOn.map Word.text).Nodup := by decide +kernel
  have hl : ∀ word ∈ ifOn, word.length ≤ 2 := by decide
  have hif : (⟨3, 0, 1⟩ : Config).ifThreshold = (⟨3, 2, 1⟩ : Config).ifThreshold := rfl
  have ht : (⟨3, 0, 1⟩ : Config).tailThreshold ≤ (⟨3, 2, 1⟩ : Config).tailThreshold := by decide
  obtain ⟨a, b, ha, hb, hroot, _, hexact⟩ := build_tail_monotone hif ht hne hd
  refine ⟨hne, hd, hl, a, b, ha, hb, hroot, ?_, ?_⟩
  · have hguess : (build ⟨3, 0, 1⟩ ifOn).result.map (fun tree => (tree.evaluate [111, 120]).index?) = .ok (some 1) := by
      rw [build, canonical_eq_insertionSort]
      decide +kernel
    rw [ha] at hguess
    exact Except.ok.inj hguess
  · apply ((hexact hl).2 [111, 120]).2
    decide +kernel

end KeywordTree
