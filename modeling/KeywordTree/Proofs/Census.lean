import KeywordTree.Proofs.Recognition
import Mathlib.Algebra.GroupWithZero.Nat
import Mathlib.Data.List.Fold
import Mathlib.Data.List.MinMax
import Mathlib.Order.Nat

/-! The census of a built tree. Every word of the corpus is counted at one leaf, every
dispatch and every tail comparison falls through to one rejection, and every level below
the root spends a column. -/
namespace KeywordTree

/-- The columns that a leaf accepts untested, if it is a guess. -/
def Leaf.unverified? : Leaf → Option Nat
  | guess unverified => some unverified
  | _ => none

def Route.guess? (route : Route) : Option (Word × Nat) := route.leaf.unverified?.map fun n => (route.word, n)

def Route.certain? (route : Route) : Option Word :=
  if route.leaf.unverified?.isSome then none else some route.word

theorem Route.guess?_eq_some_iff {route : Route} {word : Word} {n : Nat} :
    route.guess? = some (word, n) ↔ route.word = word ∧ route.leaf = .guess n := by
  rw [guess?]
  cases route.leaf <;> simp [Leaf.unverified?]

theorem Route.guess?_isSome_iff {route : Route} : route.guess?.isSome = true ↔ ∃ n, route.leaf = .guess n := by
  rw [guess?]
  cases route.leaf <;> simp [Leaf.unverified?]

section Leaves

variable {α : Type}

/-- What is read off the accepting nodes of a tree can be read off the routes to them. -/
theorem Tree.filterMap_nodes (tree : Tree) {read : Node → Option α} (readLeaf : Word × Leaf → Option α)
    (h : ∀ node : Node, read node = node.leaf?.bind readLeaf) :
    tree.nodes.filterMap read = tree.root.routes.filterMap fun route => readLeaf (route.word, route.leaf) := by
  have hread : read ∘ Prod.snd = fun entry : Nat × Node => entry.2.leaf?.bind readLeaf := by
    funext entry
    exact h entry.2
  rw [Tree.nodes, List.filterMap_map, hread, ← List.filterMap_filterMap, Node.filterMap_leaf?_preorder,
    List.filterMap_map]
  rfl

theorem Tree.filterMap_guessed? (tree : Tree) :
    tree.nodes.filterMap Node.guessed? = tree.root.routes.filterMap Route.guess? := by
  apply tree.filterMap_nodes fun leaf => leaf.2.unverified?.map fun n => (leaf.1, n)
  intro node
  cases node <;> rfl

theorem Tree.filterMap_matched? (tree : Tree) :
    tree.nodes.filterMap Node.matched? = tree.root.routes.filterMap Route.certain? := by
  apply tree.filterMap_nodes fun leaf => if leaf.2.unverified?.isSome then none else some leaf.1
  intro node
  cases node <;> rfl

end Leaves

def listedGuess (leaf : Word × Nat) : String × Nat := (leaf.1.text, leaf.2)

mutual

/-- The guesses collected below a node are the guess leaves among its nodes. -/
theorem Node.guesses_eq (depth : Nat) : (node : Node) →
    node.guesses = ((node.preorder depth).filterMap fun entry => entry.2.guessed?).map listedGuess
  | .dispatch subject mode arms otherwise => by
    rw [Node.guesses, Node.preorder, List.filterMap_cons_none rfl, List.filterMap_append, List.map_append,
      armGuesses_eq (depth + 1) arms, Node.guesses_eq (depth + 1) otherwise]
  | .verify checks word otherwise => by
    rw [Node.guesses, Node.preorder, List.filterMap_cons_none rfl, Node.guesses_eq (depth + 1) otherwise]
  | .accept word => rfl
  | .guess word unverified => rfl
  | .reject => rfl

theorem armGuesses_eq (depth : Nat) : (arms : List (Nat × Node)) →
    armGuesses arms = ((preorderArms depth arms).filterMap fun entry => entry.2.guessed?).map listedGuess
  | [] => rfl
  | (key, node) :: rest => by
    rw [armGuesses, preorderArms, List.filterMap_append, List.map_append, Node.guesses_eq depth node,
      armGuesses_eq depth rest]

end

theorem Tree.summary_guessed (tree : Tree) :
    tree.summary.guessed = (tree.nodes.filterMap Node.guessed?).map listedGuess := by
  rw [Tree.nodes, List.filterMap_map]
  exact tree.root.guesses_eq 0

/-- Every accepting leaf is counted once, as certain or as a guess. -/
theorem Tree.matched_add_guessed (tree : Tree) :
    tree.census.matched + tree.census.guessed = tree.root.routes.length := by
  have hsplit := List.length_eq_countP_add_countP (fun route : Route => route.certain?.isSome)
    (l := tree.root.routes)
  have hguess : tree.root.routes.countP (fun route => decide ¬ route.certain?.isSome = true) =
      tree.root.routes.countP fun route => route.guess?.isSome := by
    apply List.countP_congr
    intro route _
    rw [Route.certain?, Route.guess?]
    cases route.leaf <;> simp [Leaf.unverified?]
  rw [Tree.census, filterMap_guessed?, filterMap_matched?, List.length_filterMap_eq_countP,
    List.length_filterMap_eq_countP, hsplit, hguess]

private theorem one_kind (node : Node) :
    (if node.matched?.isSome then 1 else 0) + (if node.guessed?.isSome then 1 else 0) +
      (if node.isReject then 1 else 0) + (if node.mode? == some .switch then 1 else 0) +
      (if node.mode? == some .ifChain then 1 else 0) = 1 := by
  cases node with
  | dispatch subject mode arms otherwise => cases mode <;> rfl
  | verify | accept | guess | reject => rfl

theorem Tree.census_nodes (tree : Tree) :
    tree.census.nodes = tree.census.matched + tree.census.guessed + tree.census.rejected +
      tree.census.switches + tree.census.ifChains := by
  simp only [Tree.census, List.length_filterMap_eq_countP]
  induction tree.nodes with
  | nil => rfl
  | cons node rest ih =>
    have hone := one_kind node
    simp only [List.length_cons, List.countP_cons, ih]
    omega

theorem Tree.verifies_le_matched (tree : Tree) : tree.census.verifies ≤ tree.census.matched := by
  simp only [Tree.census, List.length_filterMap_eq_countP]
  apply List.countP_mono_left
  intro node _ hv
  cases node <;> simp_all [Node.isVerify, Node.matched?]

/-- Trees in which all that is no word's branch falls through to a rejection of its own. -/
inductive Node.Closed : Node → Prop where
  | dispatch {subject : Subject} {mode : Mode} {arms : List (Nat × Node)} (ha : ∀ arm ∈ arms, arm.2.Closed) :
    Node.Closed (.dispatch subject mode arms .reject)
  | verify (checks : List Check) (word : Word) : Node.Closed (.verify checks word .reject)
  | accept (word : Word) : Node.Closed (.accept word)
  | guess (word : Word) (unverified : Nat) : Node.Closed (.guess word unverified)

/-- As many rejections as dispatches and tail comparisons. -/
def Balanced (nodes : List Node) : Prop :=
  nodes.countP Node.isReject = nodes.countP (fun node => node.mode? == some .switch) +
    nodes.countP (fun node => node.mode? == some .ifChain) + nodes.countP Node.isVerify

theorem Balanced.append {a b : List Node} (ha : Balanced a) (hb : Balanced b) : Balanced (a ++ b) := by
  simp only [Balanced, List.countP_append] at *
  omega

theorem preorderArms_eq_flatMap (depth : Nat) (arms : List (Nat × Node)) :
    preorderArms depth arms = arms.flatMap fun arm => arm.2.preorder depth := by
  induction arms with
  | nil => rfl
  | cons arm rest ih => rw [preorderArms, ih, List.flatMap_cons]

theorem Balanced.arms {depth : Nat} {arms : List (Nat × Node)}
    (h : ∀ arm ∈ arms, Balanced ((arm.2.preorder depth).map Prod.snd)) :
    Balanced ((preorderArms depth arms).map Prod.snd) := by
  induction arms with
  | nil => rfl
  | cons arm rest ih =>
    rw [preorderArms, List.map_append]
    exact (h arm List.mem_cons_self).append (ih fun other ho => h other (List.mem_cons_of_mem arm ho))

theorem Node.Closed.balanced {node : Node} (h : node.Closed) (depth : Nat) :
    Balanced ((node.preorder depth).map Prod.snd) := by
  induction h generalizing depth with
  | @dispatch subject mode arms ha ih =>
    -- The dispatch and the rejection after its arms pay for each other.
    have harms := Balanced.arms fun arm hm => ih arm hm (depth + 1)
    simp only [Node.preorder, List.map_cons, List.map_append, List.map_nil]
    rw [Balanced] at harms ⊢
    cases mode <;> simp [Node.isReject, Node.isVerify, Node.mode?, harms] <;> omega
  | verify checks word => rfl
  | accept word => rfl
  | guess word unverified => rfl

theorem Grown.closed {config : Config} {words : List Word} {columns : Columns} {node : Node}
    (h : Grown config words columns node) : node.Closed := by
  induction h with
  | accept _ => exact .accept _
  | guess _ => exact .guess _ _
  | verify _ _ _ => exact .verify _ _
  | dispatch _ _ _ _ _ ih => exact .dispatch ih

theorem depth_dispatch_le {subject : Subject} {mode : Mode} {arms : List (Nat × Node)} {depth bound : Nat}
    (hb : depth + 1 ≤ bound) (ha : ∀ arm ∈ arms, ∀ entry ∈ arm.2.preorder (depth + 1), entry.1 ≤ bound) :
    ∀ entry ∈ (Node.dispatch subject mode arms .reject).preorder depth, entry.1 ≤ bound := by
  simp only [Node.preorder, preorderArms_eq_flatMap, List.forall_mem_cons, List.forall_mem_append,
    List.forall_mem_flatMap, List.not_mem_nil, false_implies, implies_true, and_true]
  exact ⟨by omega, ha, hb⟩

/-- Below a node there are at most as many levels as it has pending columns. -/
theorem Grown.depth_le {config : Config} {words : List Word} {columns : Columns} {node : Node}
    (h : Grown config words columns node) (depth : Nat) :
    ∀ entry ∈ node.preorder depth, entry.1 ≤ depth + columns.pending.length := by
  induction h generalizing depth with
  | accept _ => simp [Node.preorder]
  | guess _ => simp [Node.preorder]
  | @verify word columns checks hne _ _ =>
    have hpos : 0 < columns.pending.length := List.length_pos_iff.mpr hne
    simp only [Node.preorder, List.forall_mem_cons, List.not_mem_nil, false_implies, implies_true, and_true]
    omega
  | @dispatch words columns remaining choice arms _ _ hr _ _ ih =>
    have hspent := Columns.length_pending_of_consume hr
    refine depth_dispatch_le (by omega) fun arm ha entry he => ?_
    have := ih arm ha (depth + 1) entry he
    omega

def longest (words : List Word) : Nat := (words.map Word.length).foldr max 0

theorem length_le_longest {words : List Word} {word : Word} (h : word ∈ words) : word.length ≤ longest words :=
  List.le_max_of_le (List.mem_map_of_mem h) (Nat.le_refl _)

section Built

variable {config : Config} {corpus : List Word} {tree : Tree}

theorem build_closed (h : (build config corpus).result = .ok tree) : tree.root.Closed := by
  obtain ⟨_, _, arms, hroot, _, hg⟩ := build_inv h
  rw [hroot]
  exact .dispatch fun arm ha => (hg arm ha).2.closed

theorem build_maxDepth_le (h : (build config corpus).result = .ok tree) :
    tree.census.maxDepth ≤ longest corpus + 1 := by
  obtain ⟨_, _, arms, hroot, _, hg⟩ := build_inv h
  simp only [Tree.census, List.foldl_eq_foldr]
  apply List.max_le_of_forall_le
  rw [List.forall_mem_map, hroot]
  refine depth_dispatch_le (by omega) fun arm ha entry he => ?_
  obtain ⟨hfits, hgrown⟩ := hg arm ha
  obtain ⟨word, rest, hw⟩ := List.exists_cons_of_ne_nil hfits.nonempty
  have hword : word ∈ groupOf Word.length (canonical corpus) arm.1 := hw ▸ List.mem_cons_self
  obtain ⟨hmem, hlen⟩ := mem_groupOf.mp hword
  have hlongest := length_le_longest ((canonical_perm corpus).mem_iff.mp hmem)
  have hdepth := hgrown.depth_le 1 entry he
  rw [Columns.all, List.length_range] at hdepth
  omega

/-- Every word of the corpus is led to its own leaf. -/
theorem evaluate_letters (h : (build config corpus).result = .ok tree) {route : Route}
    (hm : route ∈ tree.root.routes) : tree.evaluate route.word.letters = route.outcome := by
  obtain ⟨below, rfl, hs⟩ := build_route h hm
  apply evaluate_of_accepts (build_orderly h) hm
  by_cases hg : ∃ n, below.leaf = .guess n
  · obtain ⟨n, hn⟩ := hg
    exact (hs.accepts_guess_iff hn).mpr ⟨rfl, fun _ _ => rfl⟩
  · exact (hs.accepts_iff_eq fun n hn => hg ⟨n, hn⟩).mpr rfl

theorem exists_route_of_mem (h : (build config corpus).result = .ok tree) {word : Word} (hw : word ∈ corpus) :
    ∃ route ∈ tree.root.routes, route.word = word :=
  List.mem_map.mp ((build_words_perm h).mem_iff.mpr hw)

theorem word_mem_of_route (h : (build config corpus).result = .ok tree) {route : Route}
    (hm : route ∈ tree.root.routes) : route.word ∈ corpus :=
  (build_words_perm h).mem_iff.mp (List.mem_map_of_mem hm)

theorem evaluate_letters_eq_guessed_iff (h : (build config corpus).result = .ok tree) {route : Route}
    (hm : route ∈ tree.root.routes) :
    (∃ found, tree.evaluate route.word.letters = .guessed found) ↔ ∃ n, route.leaf = .guess n := by
  simp only [evaluate_letters h hm, Route.outcome_eq_guessed_iff, exists_eq_left']

theorem mem_summary_guessed {entry : String × Nat} : entry ∈ tree.summary.guessed ↔
    ∃ route ∈ tree.root.routes, route.word.text = entry.1 ∧ route.leaf = .guess entry.2 := by
  simp only [tree.summary_guessed, tree.filterMap_guessed?, List.mem_map, List.mem_filterMap]
  constructor
  · rintro ⟨⟨word, n⟩, ⟨route, hm, hg⟩, rfl⟩
    obtain ⟨rfl, hn⟩ := Route.guess?_eq_some_iff.mp hg
    exact ⟨route, hm, rfl, hn⟩
  · rintro ⟨route, hm, ht, hn⟩
    exact ⟨(route.word, entry.2), ⟨route, hm, Route.guess?_eq_some_iff.mpr ⟨rfl, hn⟩⟩, Prod.ext ht rfl⟩

private theorem map_fst_guess?_sublist (routes : List Route) :
    ((routes.filterMap Route.guess?).map Prod.fst).Sublist (routes.map Route.word) := by
  induction routes with
  | nil => exact .slnil
  | cons route rest ih =>
    cases hg : route.guess? with
    | none =>
      rw [List.filterMap_cons_none hg]
      exact ih.cons _
    | some guess =>
      obtain ⟨hword, _⟩ := Route.guess?_eq_some_iff.mp hg
      rw [List.filterMap_cons_some hg, List.map_cons, List.map_cons, hword]
      exact ih.cons_cons _

theorem nodup_summary_guessed (h : (build config corpus).result = .ok tree) :
    (tree.summary.guessed.map Prod.fst).Nodup := by
  have hnodup : ((tree.root.routes.map Route.word).map Word.text).Nodup :=
    ((build_words_perm h).map Word.text).nodup_iff.mpr (distinct_iff_nodup_texts.mp (distinct_of_build h))
  have htexts : tree.summary.guessed.map Prod.fst =
      ((tree.root.routes.filterMap Route.guess?).map Prod.fst).map Word.text := by
    rw [tree.summary_guessed, tree.filterMap_guessed?, List.map_map, List.map_map]
    rfl
  rw [htexts]
  exact hnodup.sublist ((map_fst_guess?_sublist _).map Word.text)

theorem mem_summary_guessed_texts (h : (build config corpus).result = .ok tree) (text : String) :
    text ∈ tree.summary.guessed.map Prod.fst ↔ ∃ word ∈ corpus, word.text = text ∧
      ∃ found, tree.evaluate (Text.encode text) = .guessed found := by
  constructor
  · intro hm
    obtain ⟨entry, he, rfl⟩ := List.mem_map.mp hm
    obtain ⟨route, hr, ht, hn⟩ := mem_summary_guessed.mp he
    refine ⟨route.word, word_mem_of_route h hr, ht, ?_⟩
    rw [← ht, Word.encode_text]
    exact (evaluate_letters_eq_guessed_iff h hr).mpr ⟨entry.2, hn⟩
  · rintro ⟨word, hw, rfl, hg⟩
    obtain ⟨route, hr, rfl⟩ := exists_route_of_mem h hw
    rw [Word.encode_text] at hg
    obtain ⟨n, hn⟩ := (evaluate_letters_eq_guessed_iff h hr).mp hg
    exact List.mem_map.mpr ⟨(route.word.text, n), mem_summary_guessed.mpr ⟨route, hr, rfl, hn⟩, rfl⟩

theorem summary_lengths (tree : Tree) : tree.summary.lengths =
    (ascending (tree.words.map Word.length)).map fun k => (k, (groupOf Word.length tree.words k).length) := by
  rw [Tree.summary, byLength, groupBy_eq_map, List.map_map]
  rfl

theorem sum_summary_lengths (tree : Tree) : (tree.summary.lengths.map Prod.snd).sum = tree.words.length := by
  have hperm := flatMap_groupOf_perm Word.length (nodup_ascending (tree.words.map Word.length)) tree.words
    fun word hw => mem_ascending.mpr (List.mem_map_of_mem hw)
  rw [← hperm.length_eq, List.length_flatMap, summary_lengths, List.map_map]
  rfl

end Built

/-- The census of a built tree and the summary of it agree with the corpus and with what
the tree does. Every word is counted at one leaf; rejections are as many as dispatches and
tail comparisons; the depth is bounded by the longest word. The guessed texts listed are
those of the words that are guessed, each once and with more untested columns than the
threshold allows to be compared, and the lengths listed are those the root branches on. -/
theorem census_summary_agree {config : Config} {corpus : List Word} {tree : Tree}
    (h : (build config corpus).result = .ok tree) :
    (tree.census.matched + tree.census.guessed = corpus.length ∧
      tree.census.verifies ≤ tree.census.matched ∧
      tree.census.rejected = tree.census.switches + tree.census.ifChains + tree.census.verifies ∧
      tree.census.nodes = tree.census.matched + tree.census.guessed + tree.census.rejected +
        tree.census.switches + tree.census.ifChains ∧
      tree.census.maxDepth ≤ longest corpus + 1) ∧
    (tree.summary.guessed.length = tree.census.guessed ∧ (tree.summary.guessed.map Prod.fst).Nodup ∧
      (∀ text, text ∈ tree.summary.guessed.map Prod.fst ↔ ∃ word ∈ corpus, word.text = text ∧
        ∃ found, tree.evaluate (Text.encode text) = .guessed found) ∧
      ∀ entry ∈ tree.summary.guessed, ∃ word ∈ corpus, word.text = entry.1 ∧
        config.tailThreshold < entry.2 ∧ entry.2 ≤ word.length) ∧
    ((∃ mode arms, tree.root = .dispatch .length mode arms .reject ∧
        tree.summary.lengths.map Prod.fst = arms.map Prod.fst) ∧
      (tree.summary.lengths.map Prod.fst).Pairwise (· < ·) ∧ (∀ group ∈ tree.summary.lengths, 0 < group.2) ∧
      (tree.summary.lengths.map Prod.snd).sum = tree.summary.totalWords ∧
      tree.summary.totalWords = corpus.length) := by
  obtain ⟨_, hwords, arms, hroot, hkeys, _⟩ := build_inv h
  have hlengths : tree.summary.lengths.map Prod.fst = ascending (tree.words.map Word.length) := by
    simp [summary_lengths, Function.comp_def]
  refine ⟨⟨?_, tree.verifies_le_matched, (build_closed h).balanced 0, tree.census_nodes, build_maxDepth_le h⟩,
    ⟨?_, nodup_summary_guessed h, mem_summary_guessed_texts h, ?_⟩,
    ⟨_, arms, hroot, ?_⟩, ?_, ?_, sum_summary_lengths tree,
    (words_perm_of_build h).length_eq⟩
  · rw [tree.matched_add_guessed, ← List.length_map Route.word]
    exact (build_words_perm h).length_eq
  · rw [tree.summary_guessed, List.length_map]
    rfl
  · intro entry he
    obtain ⟨route, hr, ht, hn⟩ := mem_summary_guessed.mp he
    obtain ⟨hcard, hlt⟩ := unverified_add_card h hr hn
    exact ⟨route.word, word_mem_of_route h hr, ht, hlt, by omega⟩
  · rw [hlengths, hkeys, hwords]
  · rw [hlengths]
    exact pairwise_ascending _
  · rw [summary_lengths, List.forall_mem_map]
    intro k hk
    exact List.length_pos_iff.mpr (groupOf_ne_nil hk)

/-- A tree with nodes of every kind, in which `yield` is guessed. -/
theorem census_summary_agree_mixedWords : ∃ tree, (build ⟨2, 1, 1⟩ mixedWords).result = .ok tree ∧
    tree.census = ⟨11, 1, 2, 1, 3, 1, 4, 3⟩ ∧
    tree.census.rejected = tree.census.switches + tree.census.ifChains + tree.census.verifies ∧
    tree.summary.guessed = [("yield", 5)] ∧ ∃ found, tree.evaluate (Text.encode "yield") = .guessed found := by
  have hne : mixedWords ≠ [] := by decide
  have hd : (mixedWords.map Word.text).Nodup := by decide +kernel
  obtain ⟨tree, h⟩ := exists_build ⟨2, 1, 1⟩ hne hd
  have hreport : (build ⟨2, 1, 1⟩ mixedWords).result.map (fun tree => (tree.census, tree.summary.guessed)) =
      .ok (⟨11, 1, 2, 1, 3, 1, 4, 3⟩, [("yield", 5)]) := by
    rw [build, canonical_eq_insertionSort]
    decide +kernel
  rw [h] at hreport
  obtain ⟨hcensus, hguessed⟩ := Prod.mk.inj (Except.ok.inj hreport)
  obtain ⟨⟨_, _, hrejected, _⟩, ⟨_, _, htexts, _⟩, _⟩ := census_summary_agree h
  refine ⟨tree, h, hcensus, hrejected, hguessed, ?_⟩
  obtain ⟨_, _, _, hfound⟩ := (htexts "yield").mp (by rw [hguessed]; exact List.mem_cons_self)
  exact hfound

end KeywordTree
