import KeywordTree.Proofs.Canonical
import KeywordTree.Proofs.Lines
import KeywordTree.Proofs.Recognition

/-! The branches of a tree for different lengths have nothing to do with each other: each is
grown and listed as if the words of its length were all there are. -/
namespace KeywordTree

def Node.arm? (key : Nat) : Node → Option Node
  | .dispatch _ _ arms _ => arms.lookup key
  | _ => none

section Blocks

variable {names : Vocabulary} {level length : Nat}

/-- The line that opens the branch for a length, as a case or as a test. -/
def Opens (names : Vocabulary) (level length : Nat) (line : Line) : Prop :=
  line = ⟨level, "  case " ++ toString length ++ ":"⟩ ∨
    line = ⟨level, "if (" ++ names.length ++ "() == " ++ toString length ++ ") \x7b"⟩

/-- The lines that a listing has for a length: those after the line that opens its branch, up
to the next line on the level of the branch. -/
def Block (names : Vocabulary) (level length : Nat) (listing block : List Line) : Prop :=
  ∃ before opening closing after, listing = before ++ opening :: (block ++ closing :: after) ∧
    Opens names level length opening ∧ closing.level = level ∧ ∀ line ∈ block, level < line.level

/-- The text that a text has for a length: what stands between those two lines. -/
def TextBlock (names : Vocabulary) (level length : Nat) (text block : String) : Prop :=
  ∃ (before after : String) (opening closing : Line),
    text = before ++ opening.render ++ block ++ closing.render ++ after ∧
    Opens names level length opening ∧ closing.level = level

theorem Block.textBlock {listing block : List Line} (h : Block names level length listing block) :
    TextBlock names level length (String.join (listing.map Line.render)) (String.join (block.map Line.render)) := by
  obtain ⟨before, opening, closing, after, rfl, hopens, hlevel, _⟩ := h
  refine ⟨String.join (before.map Line.render), String.join (after.map Line.render), opening, closing, ?_, hopens, hlevel⟩
  simp [String.append_assoc]

theorem exists_closing (names : Vocabulary) (subject : Subject) (level : Nat) (arms : List (Nat × Node))
    (after : List Line) :
    ∃ closing rest, caseLines names subject level arms ++ ⟨level, "\x7d"⟩ :: after = closing :: rest ∧
      closing.level = level := by
  cases arms with
  | nil => exact ⟨_, after, rfl, rfl⟩
  | cons arm others => exact ⟨_, _, rfl, rfl⟩

theorem block_listing {tree : Tree} {mode : Mode} {arms : List (Nat × Node)} {otherwise node : Node}
    (hroot : tree.root = .dispatch .length mode arms otherwise) (hn : tree.root.arm? length = some node) :
    Block names level length (tree.listing names level) (node.lines names (level + 1)) := by
  rw [hroot] at hn
  obtain ⟨earlier, later, rfl, _⟩ := List.lookup_eq_some_iff.mp hn
  have hdeep : ∀ line ∈ node.lines names (level + 1), level < line.level := fun line hm =>
    Nat.lt_of_succ_le (node.level_le names (level + 1) line hm)
  rw [Tree.listing, hroot]
  cases mode with
  | switch =>
    obtain ⟨closing, rest, hrest, hlevel⟩ := exists_closing names .length level later (otherwise.lines names level)
    refine ⟨headerLines level tree.words ++ ⟨level, "switch (" ++ names.subject .length ++ ") \x7b"⟩ ::
      caseLines names .length level earlier, _, closing, rest, ?_, .inl rfl, hlevel, hdeep⟩
    rw [← hrest]
    simp [Node.lines, caseLines_append, caseLines, Subject.label]
  | ifChain =>
    refine ⟨headerLines level tree.words ++ chainLines names .length level earlier, _, ⟨level, "\x7d"⟩,
      chainLines names .length level later ++ otherwise.lines names level, ?_, .inr rfl, rfl, hdeep⟩
    simp [Node.lines, chainLines_append, chainLines, Vocabulary.equation, Vocabulary.subject, Subject.label,
      String.append_assoc]

end Blocks

section Built

variable {config : Config} {corpus : List Word} {tree : Tree} {length : Nat}

theorem lookup_of_mem {arms : List (Nat × Node)} (hk : (arms.map Prod.fst).Nodup) {arm : Nat × Node}
    (ha : arm ∈ arms) : arms.lookup arm.1 = some arm.2 := by
  obtain ⟨earlier, later, rfl⟩ := List.append_of_mem ha
  refine List.lookup_eq_some_iff.mpr ⟨earlier, later, rfl, fun other ho => ?_⟩
  rw [List.map_append, List.map_cons] at hk
  have hne := (List.nodup_append.mp hk).2.2 other.1 (List.mem_map_of_mem ho) arm.1 List.mem_cons_self
  simpa using hne.symm

/-- The arm for a length is grown from the words of that length and from nothing else. -/
theorem build_arm (h : (build config corpus).result = .ok tree) (hl : length ∈ corpus.map Word.length) :
    ∃ node, tree.root.arm? length = some node ∧
      (dispatchColumns config (canonical (groupOf Word.length corpus length)) (Columns.all length)).result = .ok node := by
  have hne : corpus ≠ [] := fun hnil => by simp [hnil] at hl
  rw [build_result config hne] at h
  obtain ⟨arms, ha, h⟩ := Traced.bind_eq_ok.mp h
  obtain rfl := Except.ok.inj h
  obtain ⟨hk, hg⟩ := growArms_groupBy_inv ha
  have hmem : length ∈ arms.map Prod.fst := by
    rw [hk, mem_ascending]
    exact mem_map_canonical.mpr hl
  obtain ⟨arm, harm, rfl⟩ := List.mem_map.mp hmem
  refine ⟨arm.2, lookup_of_mem (hk ▸ nodup_ascending _) harm, ?_⟩
  rw [← groupOf_canonical]
  exact hg arm harm

theorem groupOf_groupOf (key : Word → Nat) (words : List Word) (k : Nat) :
    groupOf key (groupOf key words k) k = groupOf key words k := by
  simp [groupOf]

theorem exists_build_alone (h : (build config corpus).result = .ok tree) (hl : length ∈ corpus.map Word.length) :
    ∃ alone mode node, (build config (groupOf Word.length corpus length)).result = .ok alone ∧
      alone.root = .dispatch .length mode [(length, node)] .reject := by
  obtain ⟨word, hw, hlen⟩ := List.mem_map.mp hl
  have hmem : word ∈ groupOf Word.length corpus length := mem_groupOf.mpr ⟨hw, hlen⟩
  have hd : Distinct (groupOf Word.length corpus length) :=
    (distinct_of_build h).sublist (List.filter_sublist.map Word.letters)
  obtain ⟨alone, ha⟩ := exists_build config (List.ne_nil_of_mem hmem) (distinct_iff_nodup_texts.mp hd)
  obtain ⟨_, _, arms, hroot, hk, _⟩ := build_inv ha
  have hlengths (k : Nat) : k ∈ (canonical (groupOf Word.length corpus length)).map Word.length ↔ k ∈ [length] := by
    rw [mem_map_canonical, List.mem_singleton]
    constructor
    · intro hm
      obtain ⟨other, ho, rfl⟩ := List.mem_map.mp hm
      exact (mem_groupOf.mp ho).2
    · rintro rfl
      exact List.mem_map.mpr ⟨word, hmem, hlen⟩
  have hkeys : arms.map Prod.fst = [length] := hk.trans (ascending_eq_of_mem_iff hlengths)
  obtain ⟨⟨key, node⟩, rfl⟩ := List.length_eq_one_iff.mp (by simpa using congrArg List.length hkeys)
  obtain rfl : key = length := List.head_eq_of_cons_eq hkeys
  exact ⟨alone, _, node, ha, hroot⟩

/-- Length arms are independent. In the tree of a corpus, the subtree for a length is the one
under the only arm of the tree that is built from the words of that length alone. So every
corpus with these words, in any order and among any others, has that subtree if it has a
tree, and its listing has the same lines and its text the same part for it, whatever names
and level are given. -/
theorem length_arms_independent (h : (build config corpus).result = .ok tree)
    (hl : length ∈ corpus.map Word.length) :
    ∃ node, tree.root.arm? length = some node ∧
      (∃ alone mode, (build config (groupOf Word.length corpus length)).result = .ok alone ∧
        alone.root = .dispatch .length mode [(length, node)] .reject) ∧
      ∀ corpus' tree', (build config corpus').result = .ok tree' →
        (groupOf Word.length corpus' length).Perm (groupOf Word.length corpus length) →
        tree'.root.arm? length = some node ∧
        ∀ names level, Block names level length (tree'.listing names level) (node.lines names (level + 1)) ∧
          TextBlock names level length (tree'.render names level)
            (String.join ((node.lines names (level + 1)).map Line.render)) := by
  obtain ⟨node, hn, hgrow⟩ := build_arm h hl
  have hsame {corpus' : List Word} {tree' : Tree} (h' : (build config corpus').result = .ok tree')
      (hp : (groupOf Word.length corpus' length).Perm (groupOf Word.length corpus length)) :
      tree'.root.arm? length = some node := by
    have hl' : length ∈ corpus'.map Word.length := by
      obtain ⟨word, hw, hlen⟩ := List.mem_map.mp hl
      have hm := hp.mem_iff.mpr (mem_groupOf.mpr ⟨hw, hlen⟩)
      exact List.mem_map.mpr ⟨word, (mem_groupOf.mp hm).1, hlen⟩
    obtain ⟨node', hn', hgrow'⟩ := build_arm h' hl'
    rw [canonical_eq_of_perm hp, hgrow] at hgrow'
    rw [hn', Except.ok.inj hgrow']
  refine ⟨node, hn, ?_, fun corpus' tree' h' hp => ⟨hsame h' hp, fun names level => ?_⟩⟩
  · obtain ⟨alone, mode, node', ha, hroot⟩ := exists_build_alone h hl
    have harm := hsame ha (by rw [groupOf_groupOf])
    rw [hroot] at harm
    obtain rfl : node' = node := by simpa [Node.arm?] using harm
    exact ⟨alone, mode, ha, hroot⟩
  · obtain ⟨_, _, arms, hroot, _⟩ := build_inv h'
    have hblock : Block names level length (tree'.listing names level) (node.lines names (level + 1)) :=
      block_listing hroot (hsame h' hp)
    exact ⟨hblock, hblock.textBlock⟩

end Built

/-- The words of `mixedWords` and `zen`, which has a length of its own. -/
def mixedAndZen : List Word := ⟨1, [122, 101, 110], by decide, by decide⟩ :: mixedWords.reverse

/-- One more length turns the chain at the root into a switch; the branch for two letters
stays as it was. -/
theorem length_arms_independent_mixedAndZen : ∃ a b node,
    (build ⟨3, 1, 1⟩ mixedWords).result = .ok a ∧ (build ⟨3, 1, 1⟩ mixedAndZen).result = .ok b ∧
    a.root.mode? = some .ifChain ∧ b.root.mode? = some .switch ∧
    a.root.arm? 2 = some node ∧ b.root.arm? 2 = some node ∧
    Block .standard 1 2 (b.listing .standard 1) (node.lines .standard 2) ∧
    TextBlock .standard 1 2 (b.render .standard 1) (String.join ((node.lines .standard 2).map Line.render)) := by
  have hd : (mixedWords.map Word.text).Nodup := by decide +kernel
  have hd' : (mixedAndZen.map Word.text).Nodup := by decide +kernel
  have hmode : (build ⟨3, 1, 1⟩ mixedWords).result.map (fun tree => tree.root.mode?) = .ok (some .ifChain) := by
    rw [build, canonical_eq_insertionSort]
    decide +kernel
  have hmode' : (build ⟨3, 1, 1⟩ mixedAndZen).result.map (fun tree => tree.root.mode?) = .ok (some .switch) := by
    rw [build, canonical_eq_insertionSort]
    decide +kernel
  obtain ⟨a, ha⟩ := exists_build ⟨3, 1, 1⟩ (by decide) hd
  obtain ⟨b, hb⟩ := exists_build ⟨3, 1, 1⟩ (by decide) hd'
  rw [ha] at hmode
  rw [hb] at hmode'
  have hperm : (groupOf Word.length mixedAndZen 2).Perm (groupOf Word.length mixedWords 2) := by decide +kernel
  have htwo : 2 ∈ mixedWords.map Word.length := by decide
  obtain ⟨node, hnode, _, hothers⟩ := length_arms_independent ha htwo
  obtain ⟨hnode', hblock⟩ := hothers mixedAndZen b hb hperm
  exact ⟨a, b, node, ha, hb, Except.ok.inj hmode, Except.ok.inj hmode', hnode, hnode', hblock .standard 1⟩

end KeywordTree
