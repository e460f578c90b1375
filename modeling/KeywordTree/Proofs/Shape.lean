import KeywordTree.Proofs.Census
import KeywordTree.Proofs.Code.Listing

/-! The shape of built trees: what their dispatches look at, how many arms they have in
which mode and in what order, and where they fall through to. -/
namespace KeywordTree

/-- What is reached when no branch of a node is taken. -/
def Node.fallback? : Node → Option Node
  | .dispatch _ _ _ otherwise => some otherwise
  | .verify _ _ otherwise => some otherwise
  | _ => none

/-- The arms of a dispatch: there are some, and their keys ascend, so that no two of them
are labelled alike in a listing. -/
structure Ranked (subject : Subject) (arms : List (Nat × Node)) : Prop where
  nonempty : arms ≠ []
  ascends : (arms.map Prod.fst).Pairwise (· < ·)
  labels : (arms.map fun arm => subject.label arm.1).Nodup

/-- The number of arms of a dispatch on a column, by its mode. -/
def Mode.Admits (threshold : Nat) : Mode → Nat → Prop
  | .ifChain, count => count = 1 ∨ count ≤ threshold
  | .switch, count => 2 ≤ count ∧ threshold < count

theorem Ranked.of_ascending {subject : Subject} {arms : List (Nat × Node)} {keys : List Nat}
    (hk : arms.map Prod.fst = ascending keys) (hne : keys ≠ []) (hp : ∀ arm ∈ arms, subject.Prints arm.1) : Ranked subject arms where
  nonempty := arms_ne_nil hk hne
  ascends := by
    rw [hk]
    exact pairwise_ascending keys
  labels := by
    have hnodup : (arms.map Prod.fst).Nodup := hk ▸ nodup_ascending keys
    have hmap : (arms.map fun arm => subject.label arm.1) = (arms.map Prod.fst).map subject.label := by
      rw [List.map_map]
      rfl
    rw [hmap]
    refine hnodup.map_on fun key hkey key' hkey' he => ?_
    obtain ⟨arm, ha, rfl⟩ := List.mem_map.mp hkey
    obtain ⟨arm', ha', rfl⟩ := List.mem_map.mp hkey'
    exact label_inj (hp arm ha) (hp arm' ha') he

theorem Selects.admits {config : Config} {words : List Word} {pending : List Nat} {choice : Choice} (hne : words ≠ [])
    (h : Selects config words pending (.ok choice)) :
    choice.mode.Admits config.ifThreshold (letterCount words choice.column) := by
  cases h with
  | shared _ hc => exact .inl ((letterCount_eq_one_iff hne hc.reaches).mpr hc)
  | fewest _ _ ht => exact .inr ht
  | @narrowest slot column hn hm hf =>
    have hlt := hm column hf.mem
    obtain ⟨hr, hc⟩ : (∀ word ∈ words, column < word.length) ∧ ¬ Constant words column := by
      simpa only [Ends, not_or, not_not] using hn column hf.mem
    have hpos := letterCount_pos hne hr
    have hone := mt (letterCount_eq_one_iff hne hr).mp hc
    refine ⟨?_, hlt⟩
    change 2 ≤ letterCount words column
    omega

namespace Grown

variable {config : Config} {words : List Word} {columns : Columns} {node : Node} {length : Nat}

/-- Every node at or below a grown one is a rejection or is itself grown, from some of the
words and with what is left of the columns. -/
theorem of_mem_preorder (h : Grown config words columns node) (hf : Fits length words columns) {depth : Nat}
    {entry : Nat × Node} (he : entry ∈ node.preorder depth) :
    entry.2 = .reject ∨ ∃ below remaining, below.Sublist words ∧ Fits length below remaining ∧
      Grown config below remaining entry.2 := by
  induction h generalizing depth with
  | @accept word columns hp =>
    obtain rfl := List.mem_singleton.mp he
    exact .inr ⟨_, columns, .refl _, hf, .accept hp⟩
  | @guess word columns hp =>
    obtain rfl := List.mem_singleton.mp he
    exact .inr ⟨_, columns, .refl _, hf, .guess hp⟩
  | @verify word columns checks hne hp hc =>
    rcases List.mem_pair.mp he with rfl | rfl
    · exact .inr ⟨_, columns, .refl _, hf, .verify hne hp hc⟩
    · exact .inl rfl
  | @dispatch words columns remaining choice arms hw hc hr hk hg ih =>
    rw [Node.preorder, List.mem_cons, List.mem_append, preorderArms_eq_flatMap, List.mem_flatMap] at he
    rcases he with rfl | ⟨arm, ha, he⟩ | he
    · exact .inr ⟨words, columns, .refl _, hf, .dispatch hw hc hr hk hg⟩
    · rcases ih arm ha (hf.arm hc hr hk ha) he with hreject | ⟨below, left, hsub, hfits, hgrown⟩
      · exact .inl hreject
      · exact .inr ⟨below, left, hsub.trans List.filter_sublist, hfits, hgrown⟩
    · obtain rfl := List.mem_singleton.mp he
      exact .inl rfl

theorem fallback (h : Grown config words columns node) : ∀ otherwise ∈ node.fallback?, otherwise = .reject := by
  cases h <;> simp [Node.fallback?]

theorem dispatch_shape {subject : Subject} {mode : Mode} {arms : List (Nat × Node)} {otherwise : Node}
    (h : Grown config words columns (.dispatch subject mode arms otherwise)) (hf : Fits length words columns) :
    (∃ column, subject = .column column) ∧ Ranked subject arms ∧
      (∀ arm ∈ arms, 'a'.toNat ≤ arm.1 ∧ arm.1 ≤ 'z'.toNat) ∧ mode.Admits config.ifThreshold arms.length ∧
      2 ≤ words.length := by
  cases h with
  | @dispatch _ _ remaining choice _ hw hc hr hk _ =>
    have hprints : ∀ arm ∈ arms, (Subject.column choice.column).Prints arm.1 := by
      intro arm ha
      obtain ⟨code, hletter, he⟩ := hf.key_letter hc hr hk ha
      rw [he]
      exact prints_letter hletter choice.column
    have hcount : arms.length = letterCount words choice.column := by
      rw [← statsOf_distinct (hf.chosen_lt hc hr), ← List.length_map Prod.fst, hk]
      rfl
    refine ⟨⟨_, rfl⟩, .of_ascending hk (by simpa using hf.nonempty) hprints, hprints, ?_, hw⟩
    rw [hcount]
    exact ((result_eq_iff_selects hf.nonempty).mp hc).admits hf.nonempty

end Grown

theorem build_nodes {config : Config} {corpus : List Word} {tree : Tree}
    (h : (build config corpus).result = .ok tree) :
    ∃ others, tree.nodes = tree.root :: others ∧ ∀ node ∈ others, node = .reject ∨
      ∃ length below remaining, below.Subperm corpus ∧ Fits length below remaining ∧
        Grown config below remaining node := by
  obtain ⟨_, _, arms, hroot, _, hg⟩ := build_inv h
  refine ⟨(preorderArms 1 arms ++ Node.reject.preorder 1).map Prod.snd, ?_, ?_⟩
  · rw [Tree.nodes, hroot]
    rfl
  · rw [List.forall_mem_map]
    intro entry he
    rw [List.mem_append, preorderArms_eq_flatMap, List.mem_flatMap] at he
    rcases he with ⟨arm, ha, he⟩ | he
    · obtain ⟨hfits, hgrown⟩ := hg arm ha
      rcases hgrown.of_mem_preorder hfits he with hreject | ⟨below, remaining, hsub, hfits, hgrown⟩
      · exact .inl hreject
      · refine .inr ⟨arm.1, below, remaining, ?_, hfits, hgrown⟩
        exact (hsub.trans List.filter_sublist).subperm.trans (canonical_perm corpus).subperm
    · obtain rfl := List.mem_singleton.mp he
      exact .inl rfl

/-- The shape of every built tree. The root dispatches on the length, as a chain if there
are fewer lengths than the threshold. All other dispatches are on a column, whose keys are
letters; as a chain they have one arm or at most as many as the threshold, as a switch at
least two and more than the threshold, and at least two words of the corpus are at the
leaves below. Every dispatch has arms, in ascending order of their keys and so under different
labels, and whatever falls through, here or after a tail comparison, is rejected. -/
theorem build_shape {config : Config} {corpus : List Word} {tree : Tree}
    (h : (build config corpus).result = .ok tree) :
    (∃ mode arms, tree.root = .dispatch .length mode arms .reject ∧ Ranked .length arms ∧
      (mode = .ifChain ↔ arms.length < config.ifThreshold)) ∧
    (∀ node ∈ tree.nodes, ∀ otherwise ∈ node.fallback?, otherwise = .reject) ∧
    ∃ others, tree.nodes = tree.root :: others ∧
      ∀ subject mode arms otherwise, Node.dispatch subject mode arms otherwise ∈ others →
        (∃ column, subject = .column column) ∧ Ranked subject arms ∧
        (∀ arm ∈ arms, 'a'.toNat ≤ arm.1 ∧ arm.1 ≤ 'z'.toNat) ∧
        mode.Admits config.ifThreshold arms.length ∧
        ((Node.dispatch subject mode arms otherwise).routes.map Route.word).Subperm corpus ∧
        2 ≤ (Node.dispatch subject mode arms otherwise).routes.length := by
  obtain ⟨hne, _, arms, hroot, hk, _⟩ := build_inv h
  obtain ⟨others, hnodes, hothers⟩ := build_nodes h
  have hlengths : arms.length = (byLength (canonical corpus)).length := by
    rw [← List.length_map Prod.fst, hk, byLength, groupBy, List.length_map]
  have hkeys : (canonical corpus).map Word.length ≠ [] := by
    obtain ⟨word, hw⟩ := List.exists_mem_of_ne_nil corpus hne
    exact List.ne_nil_of_mem (mem_map_canonical.mpr (List.mem_map_of_mem hw))
  refine ⟨⟨_, arms, hroot, .of_ascending hk hkeys fun _ _ => trivial, ?_⟩, ?_, others, hnodes, ?_⟩
  · rw [hlengths, Config.lengthMode]
    split <;> simp_all
  · rw [hnodes, List.forall_mem_cons, hroot]
    refine ⟨by simp [Node.fallback?], fun node hm => ?_⟩
    rcases hothers node hm with rfl | ⟨_, _, _, _, _, hgrown⟩
    · simp [Node.fallback?]
    · exact hgrown.fallback
  · intro subject mode arms otherwise hm
    rcases hothers _ hm with hreject | ⟨_, below, _, hsub, hfits, hgrown⟩
    · cases hreject
    · obtain ⟨hcolumn, hranked, hletters, hadmits, htwo⟩ := hgrown.dispatch_shape hfits
      have hwords := hgrown.words_perm
      refine ⟨hcolumn, hranked, hletters, hadmits, hwords.subperm.trans hsub, ?_⟩
      rw [← List.length_map Route.word, hwords.length_eq]
      exact htwo

/-- A chain of at most one letter is nowhere possible in this tree, so all its dispatches are switches. -/
theorem build_shape_mixedWords : ∃ tree others, (build ⟨1, 1, 1⟩ mixedWords).result = .ok tree ∧
    tree.nodes = tree.root :: others ∧ tree.nodes.filterMap Node.mode? = [.switch, .switch, .switch] ∧
    ∀ subject mode arms otherwise, Node.dispatch subject mode arms otherwise ∈ others →
      Ranked subject arms ∧ mode.Admits 1 arms.length ∧
      2 ≤ (Node.dispatch subject mode arms otherwise).routes.length := by
  have hne : mixedWords ≠ [] := by decide
  have hd : (mixedWords.map Word.text).Nodup := by decide +kernel
  obtain ⟨tree, h⟩ := exists_build ⟨1, 1, 1⟩ hne hd
  have hmodes : (build ⟨1, 1, 1⟩ mixedWords).result.map (fun tree => tree.nodes.filterMap Node.mode?) =
      .ok [.switch, .switch, .switch] := by
    rw [build, canonical_eq_insertionSort]
    decide +kernel
  rw [h] at hmodes
  obtain ⟨_, _, others, hnodes, hshape⟩ := build_shape h
  refine ⟨tree, others, h, hnodes, Except.ok.inj hmodes, fun subject mode arms otherwise hm => ?_⟩
  obtain ⟨_, hranked, _, hadmits, _, htwo⟩ := hshape subject mode arms otherwise hm
  exact ⟨hranked, hadmits, htwo⟩

end KeywordTree
