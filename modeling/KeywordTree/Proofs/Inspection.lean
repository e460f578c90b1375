import KeywordTree.Proofs.Recognition

/-! Which columns are read. Along every way to a leaf each column of the word is tested at
most once, by a dispatch or by the leaf, and following a tree never reads a column twice
or past the end of the candidate. -/
namespace KeywordTree

def Subject.column? : Subject → Option Nat
  | .length => none
  | .column k => some k

/-- The comparisons that are made: all up to the first that fails. -/
def compared (candidate : Candidate) : List Check → List Check
  | [] => []
  | check :: rest => check :: if check.holds candidate then compared candidate rest else []

theorem compared_sublist (candidate : Candidate) (checks : List Check) :
    (compared candidate checks).Sublist checks := by
  induction checks with
  | nil => exact .slnil
  | cons check rest ih =>
    rw [compared]
    split
    · exact ih.cons_cons check
    · exact (List.nil_sublist rest).cons_cons check

mutual

/-- Follow a tree as in evaluation, and note the columns that are read, in order. -/
def Node.inspect (candidate : Candidate) : Node → List Nat × Outcome
  | .dispatch subject _ arms otherwise =>
    let below := match subject.read candidate with
      | none => otherwise.inspect candidate
      | some key => (inspectArm candidate key arms).getD (otherwise.inspect candidate)
    (subject.column?.toList ++ below.1, below.2)
  | .verify checks word otherwise =>
    let below := if checks.all (Check.holds candidate) then ([], .accepted word) else otherwise.inspect candidate
    ((compared candidate checks).map Check.column ++ below.1, below.2)
  | .accept word => ([], .accepted word)
  | .guess word _ => ([], .guessed word)
  | .reject => ([], .rejected)

def inspectArm (candidate : Candidate) (key : Nat) : List (Nat × Node) → Option (List Nat × Outcome)
  | [] => none
  | (k, node) :: rest => if k = key then some (node.inspect candidate) else inspectArm candidate key rest

end

mutual

theorem Node.inspect_snd (candidate : Candidate) : (node : Node) →
    (node.inspect candidate).2 = node.evaluate candidate
  | .dispatch subject mode arms otherwise => by
    have ho := Node.inspect_snd candidate otherwise
    rw [Node.inspect, Node.evaluate]
    cases subject.read candidate with
    | none => exact ho
    | some key =>
      have ha := inspectArm_snd candidate key arms
      cases hi : inspectArm candidate key arms with
      | none =>
        rw [hi] at ha
        simp only [hi, ← ha]
        exact ho
      | some below =>
        rw [hi] at ha
        simp only [hi, ← ha]
        rfl
  | .verify checks word otherwise => by
    have ho := Node.inspect_snd candidate otherwise
    rw [Node.inspect, Node.evaluate]
    split
    · rfl
    · exact ho
  | .accept word => rfl
  | .guess word unverified => rfl
  | .reject => rfl

theorem inspectArm_snd (candidate : Candidate) (key : Nat) : (arms : List (Nat × Node)) →
    (inspectArm candidate key arms).map Prod.snd = evaluateArm candidate key arms
  | [] => rfl
  | (k, node) :: rest => by
    rw [inspectArm, evaluateArm]
    split
    · rw [Option.map_some, Node.inspect_snd candidate node]
    · exact inspectArm_snd candidate key rest

end

section Agreement

variable {a b : Candidate}

theorem Check.holds_congr {check : Check} (h : a[check.column]? = b[check.column]?) :
    check.holds a = check.holds b := by
  rw [Check.holds, Check.holds, h]

theorem compared_congr {checks : List Check}
    (h : ∀ check ∈ compared a checks, a[check.column]? = b[check.column]?) :
    compared a checks = compared b checks ∧ checks.all (Check.holds a) = checks.all (Check.holds b) := by
  induction checks with
  | nil => exact ⟨rfl, rfl⟩
  | cons check rest ih =>
    rw [compared, List.forall_mem_cons] at h
    obtain ⟨hcheck, hrest⟩ := h
    rw [compared, compared, List.all_cons, List.all_cons, ← Check.holds_congr hcheck]
    by_cases hc : check.holds a = true
    · rw [if_pos hc] at hrest
      obtain ⟨hsame, hall⟩ := ih hrest
      rw [hc, hsame, hall]
      exact ⟨rfl, rfl⟩
    · simp [hc]

theorem Subject.read_congr {subject : Subject} (hlen : a.length = b.length)
    (h : ∀ k ∈ subject.column?, a[k]? = b[k]?) : subject.read a = subject.read b := by
  cases subject with
  | length => rw [Subject.read, Subject.read, hlen]
  | column k => rw [Subject.read, Subject.read, h k rfl]

mutual

/-- What is noted is all that counts: another candidate of that length that agrees on the
columns noted is followed in the same way. -/
theorem Node.inspect_congr (hlen : a.length = b.length) : (node : Node) →
    (∀ k ∈ (node.inspect a).1, a[k]? = b[k]?) → node.inspect a = node.inspect b
  | .dispatch subject mode arms otherwise, h => by
    rw [Node.inspect, List.forall_mem_append] at h
    obtain ⟨hsubject, hbelow⟩ := h
    -- Both candidates take one arm, and what is noted below it was noted here.
    have hread : subject.read a = subject.read b := Subject.read_congr hlen (by simpa using hsubject)
    rw [Node.inspect, Node.inspect, ← hread]
    cases hr : subject.read a with
    | none =>
      rw [hr] at hbelow
      simp only [Node.inspect_congr hlen otherwise hbelow]
    | some key =>
      rw [hr] at hbelow
      have harm : inspectArm a key arms = inspectArm b key arms := by
        apply inspectArm_congr hlen key arms
        intro below hb
        simpa only [hb, Option.getD_some] using hbelow
      cases hi : inspectArm a key arms with
      | none =>
        simp only [hi, Option.getD_none] at hbelow
        simp only [← harm, hi, Node.inspect_congr hlen otherwise hbelow]
      | some below => simp only [← harm, hi, Option.getD_some]
  | .verify checks word otherwise, h => by
    rw [Node.inspect, List.forall_mem_append] at h
    obtain ⟨hchecks, hbelow⟩ := h
    obtain ⟨hsame, hall⟩ := compared_congr (List.forall_mem_map.mp hchecks)
    rw [Node.inspect, Node.inspect, ← hsame, ← hall]
    split at hbelow
    · rename_i hc
      rw [if_pos hc, if_pos hc]
    · rename_i hc
      rw [if_neg hc, if_neg hc, Node.inspect_congr hlen otherwise hbelow]
  | .accept word, _ => rfl
  | .guess word unverified, _ => rfl
  | .reject, _ => rfl

theorem inspectArm_congr (hlen : a.length = b.length) (key : Nat) : (arms : List (Nat × Node)) →
    (∀ below, inspectArm a key arms = some below → ∀ k ∈ below.1, a[k]? = b[k]?) →
    inspectArm a key arms = inspectArm b key arms
  | [], _ => rfl
  | (k, node) :: rest, h => by
    rw [inspectArm] at h
    rw [inspectArm, inspectArm]
    by_cases hk : k = key
    · rw [if_pos hk] at h ⊢
      rw [if_pos hk, Node.inspect_congr hlen node (h _ rfl)]
    · rw [if_neg hk] at h ⊢
      rw [if_neg hk]
      exact inspectArm_congr hlen key rest h

end

end Agreement

theorem mem_of_inspectArm {candidate : Candidate} {key : Nat} {arms : List (Nat × Node)} {below : List Nat × Outcome}
    (h : inspectArm candidate key arms = some below) : ∃ arm ∈ arms, arm.1 = key ∧ arm.2.inspect candidate = below := by
  induction arms with
  | nil => cases h
  | cons arm rest ih =>
    obtain ⟨k, node⟩ := arm
    rw [inspectArm] at h
    split at h
    · rename_i hk
      exact ⟨(k, node), List.mem_cons_self, hk, Option.some.inj h⟩
    · obtain ⟨arm, ha, hb⟩ := ih h
      exact ⟨arm, List.mem_cons_of_mem _ ha, hb⟩

theorem inspect_dispatch (candidate : Candidate) (subject : Subject) (mode : Mode) (arms : List (Nat × Node)) :
    (∃ arm ∈ arms, subject.read candidate = some arm.1 ∧
      ((Node.dispatch subject mode arms .reject).inspect candidate).1 =
        subject.column?.toList ++ (arm.2.inspect candidate).1) ∨
    ((Node.dispatch subject mode arms .reject).inspect candidate).1 = subject.column?.toList := by
  rw [Node.inspect]
  cases hr : subject.read candidate with
  | none => exact .inr (List.append_nil _)
  | some key =>
    cases hi : inspectArm candidate key arms with
    | none =>
      right
      simp only [hi]
      exact List.append_nil _
    | some below =>
      obtain ⟨arm, ha, rfl, rfl⟩ := mem_of_inspectArm hi
      left
      refine ⟨arm, ha, rfl, ?_⟩
      simp only [hi]
      rfl

/-- Below a node only columns that are pending there are read, each at most once. -/
theorem Grown.inspect_subperm {config : Config} {words : List Word} {columns : Columns} {node : Node}
    (h : Grown config words columns node) {length : Nat} (hf : Fits length words columns) (candidate : Candidate) :
    (node.inspect candidate).1.Subperm columns.pending := by
  induction h with
  | accept _ => exact List.nil_subperm
  | guess _ => exact List.nil_subperm
  | @verify word columns checks hne hp hc =>
    obtain ⟨hcols, _⟩ := checks_inv hc
    have hread : ((Node.verify checks word .reject).inspect candidate).1 =
        (compared candidate checks).map Check.column := by
      rw [Node.inspect]
      split <;> exact List.append_nil _
    rw [hread, ← hcols]
    exact ((compared_sublist candidate checks).map Check.column).subperm
  | @dispatch words columns remaining choice arms _ hc hr hk _ ih =>
    obtain ⟨column, hcol, _, hmoved⟩ := Columns.consume_inv hr
    obtain rfl : choice.column = column := Option.some.inj ((hf.chosen hc hr).symm.trans hcol)
    refine List.Subperm.trans ?_ hmoved.subperm
    rcases inspect_dispatch candidate (.column choice.column) choice.mode arms with ⟨arm, ha, _, he⟩ | he
    · rw [he]
      exact (List.subperm_cons choice.column).mpr (ih arm ha (hf.arm hc hr hk ha))
    · rw [he]
      exact (List.subperm_cons choice.column).mpr List.nil_subperm

/-- What a leaf does about the columns of its word, after the given ones were dispatched on:
it has none left, compares the rest with the letters of the word, or counts the rest. -/
def Leaf.Completes (config : Config) (word : Word) (columns : List Nat) : Leaf → Prop
  | accept => columns.toFinset = Finset.range word.length
  | verify checks => (checks.map Check.column).Nodup ∧
      Disjoint columns.toFinset (checks.map Check.column).toFinset ∧
      columns.toFinset ∪ (checks.map Check.column).toFinset = Finset.range word.length ∧
      (∀ check ∈ checks, word.letters[check.column]? = some check.expected) ∧
      1 ≤ checks.length ∧ checks.length ≤ config.tailThreshold
  | guess unverified => unverified = word.length - columns.length ∧ config.tailThreshold < unverified

theorem Leaf.Covers.completes {config : Config} {word : Word} {columns untested : List Nat} {leaf : Leaf}
    (hc : leaf.Covers config word untested) (hp : (columns ++ untested).Perm (List.range word.length)) :
    leaf.Completes config word columns := by
  have hunion : columns.toFinset ∪ untested.toFinset = Finset.range word.length := by
    ext k
    simpa using hp.mem_iff
  cases leaf with
  | accept =>
    obtain rfl : untested = [] := hc
    rw [List.toFinset_nil, Finset.union_empty] at hunion
    exact hunion
  | verify checks =>
    obtain ⟨hne, hle, rfl, hexp⟩ := hc
    obtain ⟨_, hnodup, hdisjoint⟩ := List.nodup_append'.mp (hp.nodup_iff.mpr List.nodup_range)
    rw [List.length_map] at hle
    refine ⟨hnodup, List.disjoint_toFinset_iff_disjoint.mpr hdisjoint, hunion, hexp, ?_, hle⟩
    exact List.length_pos_iff.mpr fun hnil => hne (by rw [hnil, List.map_nil])
  | guess unverified =>
    obtain ⟨rfl, hlt⟩ := hc
    have hlen := hp.length_eq
    rw [List.length_append, List.length_range] at hlen
    exact ⟨by omega, hlt⟩

section Built

variable {config : Config} {corpus : List Word} {tree : Tree}

theorem build_inspect_subperm (h : (build config corpus).result = .ok tree) (candidate : Candidate) :
    (tree.root.inspect candidate).1.Subperm (List.range candidate.length) := by
  obtain ⟨_, _, arms, hroot, _, hg⟩ := build_inv h
  rw [hroot]
  rcases inspect_dispatch candidate .length _ arms with ⟨arm, ha, hread, he⟩ | he
  · obtain ⟨hfits, hgrown⟩ := hg arm ha
    obtain hlen : candidate.length = arm.1 := Option.some.inj hread
    rw [he, hlen]
    exact hgrown.inspect_subperm hfits candidate
  · rw [he]
    exact List.nil_subperm

/-- Columns on every way to a leaf. Below the arm for a length, every way to an accepting
leaf dispatches on different columns of that length and takes the arms of its word's own
letters, and the leaf completes them: a match has tested all columns, a comparison tests
those that are left, few enough and each once, and a guess counts those that are left,
more than are compared. Following the tree on any candidate reads the columns noted and
depends on no other, and so it reads no column twice and none past the end. -/
theorem columns_on_every_path (h : (build config corpus).result = .ok tree) :
    (∃ mode arms, tree.root = .dispatch .length mode arms .reject ∧ ∀ arm ∈ arms, ∀ route ∈ arm.2.routes,
      route.word.length = arm.1 ∧ route.columns.Nodup ∧ (∀ column ∈ route.columns, column < arm.1) ∧
      (∀ step ∈ route.steps, ∃ column key,
        step = .arm (.column column) key ∧ route.word.codeAt? column = some key) ∧
      route.leaf.Completes config route.word route.columns) ∧
    ∀ candidate, (tree.root.inspect candidate).2 = tree.evaluate candidate ∧
      (∀ other : Candidate, candidate.length = other.length →
        (∀ column ∈ (tree.root.inspect candidate).1, candidate[column]? = other[column]?) →
        tree.evaluate candidate = tree.evaluate other) ∧
      (tree.root.inspect candidate).1.Nodup ∧
      ∀ column ∈ (tree.root.inspect candidate).1, column < candidate.length := by
  obtain ⟨_, _, arms, hroot, _, hg⟩ := build_inv h
  refine ⟨⟨_, arms, hroot, fun arm ha route hm => ?_⟩, fun candidate => ⟨?_, ?_, ?_, ?_⟩⟩
  · obtain ⟨hfits, hgrown⟩ := hg arm ha
    obtain ⟨hmem, hsteps, untested, hperm, hcovers⟩ := hgrown.sound hfits route hm
    have hlen : route.word.length = arm.1 := hfits.length_eq _ hmem
    have hnodup : (route.columns ++ untested).Nodup := hperm.nodup_iff.mpr List.nodup_range
    refine ⟨hlen, hnodup.of_append_left, ?_, hsteps, hcovers.completes (hlen ▸ hperm)⟩
    intro column hc
    exact List.mem_range.mp (hperm.mem_iff.mp (List.mem_append_left _ hc))
  · exact Node.inspect_snd candidate tree.root
  · intro other hlen hagree
    rw [Tree.evaluate, Tree.evaluate, ← Node.inspect_snd, ← Node.inspect_snd, Node.inspect_congr hlen _ hagree]
  · obtain ⟨read, hperm, hsub⟩ := build_inspect_subperm h candidate
    exact hperm.nodup_iff.mp (List.nodup_range.sublist hsub)
  · intro column hc
    exact List.mem_range.mp ((build_inspect_subperm h candidate).subset hc)

end Built

/-- Both columns of `ix` are read before it is rejected. -/
theorem columns_on_every_path_mixedWords : ∃ tree mode arms, (build ⟨2, 1, 1⟩ mixedWords).result = .ok tree ∧
    tree.root = .dispatch .length mode arms .reject ∧
    (∀ arm ∈ arms, ∀ route ∈ arm.2.routes, route.leaf.Completes ⟨2, 1, 1⟩ route.word route.columns) ∧
    (tree.root.inspect [105, 120]).1 = [0, 1] ∧ tree.evaluate [105, 120] = .rejected := by
  have hne : mixedWords ≠ [] := by decide
  have hd : (mixedWords.map Word.text).Nodup := by decide +kernel
  obtain ⟨tree, h⟩ := exists_build ⟨2, 1, 1⟩ hne hd
  have hinspect : (build ⟨2, 1, 1⟩ mixedWords).result.map (fun tree => tree.root.inspect [105, 120]) =
      .ok ([0, 1], .rejected) := by
    rw [build, canonical_eq_insertionSort]
    decide +kernel
  rw [h] at hinspect
  obtain ⟨hread, hrejected⟩ := Prod.mk.inj (Except.ok.inj hinspect)
  obtain ⟨⟨mode, arms, hroot, hroutes⟩, hfollow⟩ := columns_on_every_path h
  refine ⟨tree, mode, arms, h, hroot, ?_, hread, (hfollow [105, 120]).1.symm.trans hrejected⟩
  intro arm ha route hm
  exact (hroutes arm ha route hm).2.2.2.2

end KeywordTree
