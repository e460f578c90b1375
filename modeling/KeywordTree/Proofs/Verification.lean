import KeywordTree.Proofs.Census
import KeywordTree.Proofs.Probes

/-! What a verification of a built tree reports: no failure ever, the guessed words as
often as the tree has guess leaves, and false guesses exactly where there are guess leaves. -/
namespace KeywordTree

section Built

variable {config : Config} {corpus : List Word} {tree : Tree}

theorem evaluate_of_not_word (h : (build config corpus).result = .ok tree) {candidate : Candidate}
    (hn : ∀ word ∈ corpus, word.letters ≠ candidate) :
    tree.evaluate candidate = .rejected ∨ ∃ word ∈ corpus, tree.evaluate candidate = .guessed word := by
  rcases evaluate_cases h candidate with hr | ⟨word, hw, hg | ha⟩
  · exact .inl hr
  · exact .inr ⟨word, hw, hg⟩
  · obtain ⟨route, hu⟩ := exists_unique_route h hw
    exact absurd ((evaluate_eq_accepted_iff h hu).mp ha).2.symm (hn word hw)

theorem wordFailure?_eq_none (h : (build config corpus).result = .ok tree) {word : Word} (hw : word ∈ corpus) :
    tree.wordFailure? word = none := by
  obtain ⟨route, hm, rfl⟩ := exists_route_of_mem h hw
  rw [Tree.wordFailure?, evaluate_letters h hm]
  rcases route.outcome_cases with ho | ho <;> rw [ho] <;> exact if_pos rfl

theorem probeFailure?_eq_none (h : (build config corpus).result = .ok tree) {probe : Candidate}
    (hn : ∀ word ∈ corpus, word.letters ≠ probe) : tree.probeFailure? probe = none := by
  rw [Tree.probeFailure?]
  rcases evaluate_of_not_word h hn with hr | ⟨word, hw, hg⟩
  · rw [hr]
  · rw [hg]
    exact if_neg (hn word hw)

theorem guesses_word (h : (build config corpus).result = .ok tree) {route : Route} (hm : route ∈ tree.root.routes) :
    tree.guesses route.word = route.guess?.isSome := by
  rw [Tree.guesses, evaluate_letters h hm, Route.outcome, Route.guess?]
  cases route.leaf <;> simp [Leaf.unverified?]

theorem verify_wordsGuessed (h : (build config corpus).result = .ok tree) (draws : List Candidate) :
    (tree.verify draws).wordsGuessed = tree.census.guessed := by
  have hperm : tree.words.Perm (tree.root.routes.map Route.word) :=
    (words_perm_of_build h).trans (build_words_perm h).symm
  calc (tree.verify draws).wordsGuessed
    _ = (tree.root.routes.map Route.word).countP tree.guesses := hperm.countP_eq _
    _ = tree.root.routes.countP fun route => tree.guesses route.word := List.countP_map
    _ = tree.root.routes.countP fun route => route.guess?.isSome :=
      List.countP_congr fun route hm => by rw [guesses_word h hm]
    _ = (tree.nodes.filterMap Node.guessed?).length := by
      rw [tree.filterMap_guessed?, List.length_filterMap_eq_countP]

theorem verify_failures (h : (build config corpus).result = .ok tree) (draws : List Candidate) :
    (tree.verify draws).failures = [] := by
  have hwords := words_perm_of_build h
  refine List.append_eq_nil_iff.mpr ⟨List.filterMap_eq_nil_iff.mpr ?_, List.filterMap_eq_nil_iff.mpr ?_⟩
  · intro word hw
    exact wordFailure?_eq_none h (hwords.mem_iff.mp hw)
  · intro probe hp
    exact probeFailure?_eq_none h fun word hw => (mem_probes.mp hp).2 word (hwords.mem_iff.mpr hw)

end Built

/-- Verification never fails on a built tree: not on a word, not on a substitution and not
on anything drawn. It checks every word, and as many of them are only guessed as the tree
has guess leaves. -/
theorem verify_built_passes (config : Config) {corpus : List Word} (hne : corpus ≠ [])
    (hd : (corpus.map Word.text).Nodup) :
    ∃ tree, (build config corpus).result = .ok tree ∧ ∀ draws,
      (tree.verify draws).failures = [] ∧ (tree.verify draws).wordsChecked = corpus.length ∧
      (tree.verify draws).wordsGuessed = tree.census.guessed := by
  obtain ⟨tree, h⟩ := exists_build config hne hd
  exact ⟨tree, h, fun draws =>
    ⟨verify_failures h draws, (words_perm_of_build h).length_eq, verify_wordsGuessed h draws⟩⟩

/-- Two words have one index, and what is drawn is a slip and a word. -/
theorem verify_built_passes_mixedWords : mixedWords ≠ [] ∧ (mixedWords.map Word.text).Nodup ∧
    ∃ tree, (build ⟨2, 1, 1⟩ mixedWords).result = .ok tree ∧
      let verification := tree.verify [[121, 105, 101, 120, 120], [105, 110]]
      verification.failures = [] ∧ verification.wordsChecked = 4 ∧ verification.wordsGuessed = tree.census.guessed := by
  have hne : mixedWords ≠ [] := by decide
  have hd : (mixedWords.map Word.text).Nodup := by decide +kernel
  obtain ⟨tree, h, hverify⟩ := verify_built_passes ⟨2, 1, 1⟩ hne hd
  exact ⟨hne, hd, tree, h, hverify _⟩

section Slips

/-- The columns of its word that the way to a leaf does not test. -/
def Route.untested (route : Route) : List Nat :=
  (List.range route.word.length).filter fun k => k ∉ route.columns

/-- The strings that are the word of a leaf but for one letter in an untested column. -/
def Route.slips (route : Route) : List Candidate := route.untested.flatMap route.word.substitutionsAt

theorem Route.mem_untested {route : Route} {k : Nat} :
    k ∈ route.untested ↔ k < route.word.length ∧ k ∉ route.columns := by
  simp [untested]

theorem Route.Sound.length_untested {config : Config} {words : List Word} {route : Route}
    (hs : route.Sound config words (List.range route.word.length)) {n : Nat} (hn : route.leaf = .guess n) :
    route.untested.length = n := by
  obtain ⟨rest, hperm, hcov⟩ := hs.covers
  rw [hn] at hcov
  obtain ⟨rfl, _⟩ := hcov
  have hnodup : (route.columns ++ rest).Nodup := hperm.nodup_iff.mpr List.nodup_range
  have hrest : (route.columns ++ rest).filter (fun k => k ∉ route.columns) = rest := by
    rw [List.filter_append, List.filter_eq_nil_iff.mpr (by simp), List.nil_append, List.filter_eq_self]
    intro k hk
    simpa using fun hc => (List.nodup_append.mp hnodup).2.2 k hc k hk rfl
  rw [Route.untested, ← (hperm.filter _).length_eq, hrest]

theorem Route.nodup_slips (route : Route) : route.slips.Nodup :=
  Word.nodup_flatMap_substitutionsAt (List.nodup_range.filter _) fun _ hk => (mem_untested.mp hk).1

theorem Route.exists_differsAt {route : Route} {candidate : Candidate} (h : candidate ∈ route.slips) :
    ∃ k ∈ route.untested, candidate ∈ route.word.substitutionsAt k ∧ route.word.DiffersAt k candidate := by
  obtain ⟨k, hk, hc⟩ := List.mem_flatMap.mp h
  exact ⟨k, hk, hc, Word.differsAt_of_mem (mem_untested.mp hk).1 hc⟩

variable {config : Config} {corpus : List Word} {tree : Tree} {route : Route} {n : Nat} {candidate : Candidate}

theorem evaluate_slip (h : (build config corpus).result = .ok tree) (hm : route ∈ tree.root.routes)
    (hn : route.leaf = .guess n) (hc : candidate ∈ route.slips) : tree.evaluate candidate = .guessed route.word := by
  obtain ⟨k, hk, _, hdiff⟩ := Route.exists_differsAt hc
  obtain ⟨below, rfl, hs⟩ := build_route h hm
  have haccepts : (below.after (.arm .length below.word.length)).Accepts candidate := by
    refine (hs.accepts_guess_iff hn).mpr ⟨hdiff.length_eq, fun j hj => hdiff.same j ?_⟩
    rintro rfl
    exact (Route.mem_untested.mp hk).2 hj
  rw [Tree.evaluate, evaluate_of_accepts (build_orderly h) hm haccepts]
  exact Route.outcome_eq_guessed_iff.mpr ⟨rfl, n, hn⟩

/-- A slip is no word, since every word is led to its own leaf. -/
theorem slip_ne_letters (h : (build config corpus).result = .ok tree) (hm : route ∈ tree.root.routes)
    (hn : route.leaf = .guess n) (hc : candidate ∈ route.slips) : ∀ word ∈ corpus, word.letters ≠ candidate := by
  intro word hw he
  obtain ⟨other, ho, rfl⟩ := exists_route_of_mem h hw
  obtain ⟨k, _, _, hdiff⟩ := Route.exists_differsAt hc
  have hslip := evaluate_slip h hm hn hc
  rw [← he, evaluate_letters h ho] at hslip
  rw [(Route.outcome_eq_guessed_iff.mp hslip).1] at he
  exact hdiff.ne_letters he

theorem slip_mem_probes (h : (build config corpus).result = .ok tree) (hm : route ∈ tree.root.routes)
    (hn : route.leaf = .guess n) (hc : candidate ∈ route.slips) (draws : List Candidate) :
    candidate ∈ (probes tree.words draws).filter tree.misguesses := by
  have hwords := words_perm_of_build h
  have hnot := slip_ne_letters h hm hn hc
  obtain ⟨k, hk, hsub, hdiff⟩ := Route.exists_differsAt hc
  refine List.mem_filter.mpr ⟨mem_probes.mpr ⟨.inl ⟨route.word, ?_, ?_⟩, ?_⟩, ?_⟩
  · exact hwords.mem_iff.mpr (word_mem_of_route h hm)
  · rw [Word.substitutions_eq_flatMap]
    exact List.mem_flatMap.mpr ⟨k, List.mem_range.mpr (Route.mem_untested.mp hk).1, hsub⟩
  · exact fun word hw => hnot word (hwords.mem_iff.mp hw)
  · rw [Tree.misguesses, evaluate_slip h hm hn hc]
    simpa using hdiff.ne_letters

/-- The slips of all guess leaves of a tree. -/
def Tree.slips (tree : Tree) : List Candidate :=
  (tree.root.routes.filter fun route => route.guess?.isSome).flatMap Route.slips

/-- A slip belongs to one leaf, the one it is led to. -/
theorem nodup_slips (h : (build config corpus).result = .ok tree) : tree.slips.Nodup := by
  have hdistinct : (tree.root.routes.map Route.word).Nodup :=
    (build_words_perm h).nodup_iff.mpr (List.Nodup.of_map Word.letters (distinct_of_build h))
  refine List.nodup_flatMap.mpr ⟨fun route _ => route.nodup_slips, ?_⟩
  refine ((List.pairwise_map.mp hdistinct).filter _).imp_of_mem fun {a b} ha hb hne candidate hca hcb => hne ?_
  obtain ⟨hma, hga⟩ := List.mem_filter.mp ha
  obtain ⟨hmb, hgb⟩ := List.mem_filter.mp hb
  obtain ⟨_, hna⟩ := Route.guess?_isSome_iff.mp hga
  obtain ⟨_, hnb⟩ := Route.guess?_isSome_iff.mp hgb
  exact Outcome.guessed.inj ((evaluate_slip h hma hna hca).symm.trans (evaluate_slip h hmb hnb hcb))

private theorem length_flatMap_slips {routes : List Route}
    (h : ∀ route ∈ routes, ∀ n, route.leaf = .guess n → route.untested.length = n) :
    ((routes.filter fun route => route.guess?.isSome).flatMap Route.slips).length =
      25 * ((routes.filterMap Route.guess?).map Prod.snd).sum := by
  induction routes with
  | nil => rfl
  | cons route rest ih =>
    have hrest := ih fun other ho => h other (List.mem_cons_of_mem route ho)
    cases hg : route.guess? with
    | none => rw [List.filter_cons_of_neg (by simp [hg]), List.filterMap_cons_none hg, hrest]
    | some guess =>
      obtain ⟨_, hn⟩ := Route.guess?_eq_some_iff.mp hg
      have hslips : route.slips.length = 25 * guess.2 := by
        rw [Route.slips, Word.length_flatMap_substitutionsAt fun k hk => (Route.mem_untested.mp hk).1,
          h route List.mem_cons_self guess.2 hn]
      rw [List.filter_cons_of_pos (by simp [hg]), List.filterMap_cons_some hg, List.flatMap_cons, List.length_append,
        hrest, hslips, List.map_cons, List.sum_cons, Nat.mul_add]

theorem length_slips (h : (build config corpus).result = .ok tree) :
    tree.slips.length = 25 * ((tree.nodes.filterMap Node.guessed?).map Prod.snd).sum := by
  rw [tree.filterMap_guessed?]
  apply length_flatMap_slips
  intro route hm n hn
  obtain ⟨below, rfl, hs⟩ := build_route h hm
  exact hs.length_untested hn

theorem length_slips_le (h : (build config corpus).result = .ok tree) (draws : List Candidate) :
    tree.slips.length ≤ (tree.verify draws).falseGuesses := by
  have hsub : tree.slips ⊆ (probes tree.words draws).filter tree.misguesses := by
    intro candidate hc
    obtain ⟨route, hr, hslip⟩ := List.mem_flatMap.mp hc
    obtain ⟨hm, hg⟩ := List.mem_filter.mp hr
    obtain ⟨n, hn⟩ := Route.guess?_isSome_iff.mp hg
    exact slip_mem_probes h hm hn hslip draws
  calc tree.slips.length
    _ ≤ ((probes tree.words draws).filter tree.misguesses).length :=
      (List.subperm_of_subset (nodup_slips h) hsub).length_le
    _ = (tree.verify draws).falseGuesses := List.countP_eq_length_filter.symm

theorem guessed_pos_of_falseGuess (h : (build config corpus).result = .ok tree)
    (hc : tree.misguesses candidate = true) : 0 < tree.census.guessed := by
  rw [Tree.misguesses] at hc
  split at hc
  · rename_i word he
    obtain ⟨route, hm, _, ho⟩ := (evaluate_eq_iff (build_orderly h) candidate (by simp)).mp he
    obtain ⟨n, hn⟩ := (Route.outcome_eq_guessed_iff.mp ho).2
    have hguess : (route.word, n) ∈ tree.nodes.filterMap Node.guessed? := by
      rw [tree.filterMap_guessed?]
      exact List.mem_filterMap.mpr ⟨route, hm, Route.guess?_eq_some_iff.mpr ⟨rfl, hn⟩⟩
    exact List.length_pos_of_mem hguess
  · cases hc

theorem unverified_pos (h : (build config corpus).result = .ok tree) :
    ∀ n ∈ (tree.nodes.filterMap Node.guessed?).map Prod.snd, 0 < n := by
  rw [tree.filterMap_guessed?, List.forall_mem_map]
  intro guess hg
  obtain ⟨route, hm, hr⟩ := List.mem_filterMap.mp hg
  exact Nat.zero_lt_of_lt (unverified_add_card h hm (Route.guess?_eq_some_iff.mp hr).2).2

end Slips

/-- Verification exposes every guess leaf. For each column that a guess leaves open, each of
the 25 other letters makes a false guess, and none of these is lost to another word or
another leaf. So whatever is drawn in addition, there are false guesses exactly if there
are guess leaves. -/
theorem verify_exposes_guesses {config : Config} {corpus : List Word} {tree : Tree}
    (h : (build config corpus).result = .ok tree) (draws : List Candidate) :
    25 * ((tree.nodes.filterMap Node.guessed?).map Prod.snd).sum ≤ (tree.verify draws).falseGuesses ∧
    ((tree.verify draws).falseGuesses = 0 ↔ tree.census.guessed = 0) := by
  have hbound := length_slips_le h draws
  rw [length_slips h] at hbound
  refine ⟨hbound, fun hnone => ?_, fun hnone => ?_⟩
  · have hsum : ((tree.nodes.filterMap Node.guessed?).map Prod.snd).sum = 0 := by omega
    have hopen : ∀ n ∈ (tree.nodes.filterMap Node.guessed?).map Prod.snd, n = 0 :=
      List.sum_eq_zero_iff_forall_eq_nat.mp hsum
    have hempty : (tree.nodes.filterMap Node.guessed?).map Prod.snd = [] :=
      List.eq_nil_iff_forall_not_mem.mpr fun n hn => absurd (hopen n hn) (unverified_pos h n hn).ne'
    exact List.length_eq_zero_iff.mpr (List.map_eq_nil_iff.mp hempty)
  · apply List.countP_eq_zero.mpr
    intro candidate _ hc
    have := guessed_pos_of_falseGuess h hc
    omega

/-- The guess for `yield` leaves five columns open. -/
theorem verify_exposes_guesses_mixedWords : ∃ tree, (build ⟨2, 1, 1⟩ mixedWords).result = .ok tree ∧
    tree.census.guessed = 1 ∧ 125 ≤ (tree.verify []).falseGuesses ∧ (tree.verify [[105, 110]]).falseGuesses ≠ 0 := by
  have hne : mixedWords ≠ [] := by decide
  have hd : (mixedWords.map Word.text).Nodup := by decide +kernel
  obtain ⟨tree, h⟩ := exists_build ⟨2, 1, 1⟩ hne hd
  have hcounts : (build ⟨2, 1, 1⟩ mixedWords).result.map (fun tree =>
      (tree.census.guessed, 25 * ((tree.nodes.filterMap Node.guessed?).map Prod.snd).sum)) = .ok (1, 125) := by
    rw [build, canonical_eq_insertionSort]
    decide +kernel
  rw [h] at hcounts
  obtain ⟨hguessed, hopen⟩ := Prod.mk.inj (Except.ok.inj hcounts)
  have hbound := (verify_exposes_guesses h []).1
  refine ⟨tree, h, hguessed, hopen ▸ hbound, fun hnone => ?_⟩
  have := (verify_exposes_guesses h [[105, 110]]).2.mp hnone
  omega

end KeywordTree
