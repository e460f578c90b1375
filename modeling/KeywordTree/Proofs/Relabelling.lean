import KeywordTree.Proofs.Recognition

/-! Indices are labels only. Two corpora with the same texts under different indices are
put into different orders, but every step of a construction looks at texts and never at
their order, so it ends in the same error or in trees that differ in the words of their
leaves. -/
namespace KeywordTree

mutual

def Node.mapWords (f : Word → Word) : Node → Node
  | .dispatch subject mode arms otherwise => .dispatch subject mode (mapArms f arms) (otherwise.mapWords f)
  | .verify checks word otherwise => .verify checks (f word) (otherwise.mapWords f)
  | .accept word => .accept (f word)
  | .guess word unverified => .guess (f word) unverified
  | .reject => .reject

def mapArms (f : Word → Word) : List (Nat × Node) → List (Nat × Node)
  | [] => []
  | (key, node) :: rest => (key, node.mapWords f) :: mapArms f rest

end

/-- Words that take the place of others with the same texts. -/
structure Relabels (f : Word → Word) (a b : List Word) : Prop where
  texts : (a.map Word.letters).Perm (b.map Word.letters)
  mem : ∀ word ∈ a, f word ∈ b
  letters : ∀ word ∈ a, (f word).letters = word.letters

namespace Relabels

variable {f : Word → Word} {a b : List Word}

theorem sameTexts (h : Relabels f a b) : SameTexts a b := .of_perm h.texts

theorem length_eq (h : Relabels f a b) : a.length = b.length := by
  simpa using h.texts.length_eq

theorem group (h : Relabels f a b) (key : List UInt8 → Nat) (k : Nat) :
    Relabels f (groupOf (fun word => key word.letters) a k) (groupOf (fun word => key word.letters) b k) where
  texts := by
    have hfilter (words : List Word) : (groupOf (fun word => key word.letters) words k).map Word.letters =
        (words.map Word.letters).filter fun letters => key letters == k := by
      rw [groupOf, List.filter_map]
      rfl
    rw [hfilter, hfilter]
    exact h.texts.filter _
  mem word hw := by
    obtain ⟨hw, hk⟩ := mem_groupOf.mp hw
    exact mem_groupOf.mpr ⟨h.mem word hw, by rw [h.letters word hw, hk]⟩
  letters word hw := h.letters word (mem_groupOf.mp hw).1

/-- The order of the texts is lost, but copies of one text have no order. -/
theorem map_text_eq (h : Relabels f a b) {n : Nat} {letters : List UInt8}
    (hall : a.map Word.letters = List.replicate n letters) : a.map Word.text = b.map Word.text := by
  have hletters : b.map Word.letters = a.map Word.letters := by
    have hperm := h.texts.symm
    rw [hall] at hperm ⊢
    exact List.perm_replicate.mp hperm
  have htext (words : List Word) : words.map Word.text =
      (words.map Word.letters).map fun letters => String.ofList (letters.map Char.ofUInt8) := by
    rw [List.map_map]
    rfl
  rw [htext, htext, hletters]

end Relabels

theorem Fits.relabel {length : Nat} {f : Word → Word} {a b : List Word} {columns : Columns}
    (h : Fits length a columns) (hr : Relabels f a b) : Fits length b columns where
  nonempty := mt hr.sameTexts.eq_nil_iff.mpr h.nonempty
  length_eq := (hr.sameTexts.forall_iff fun letters => letters.length = length).mp h.length_eq
  order_perm := h.order_perm
  agree column hc := by
    refine (hr.sameTexts.forall_iff fun letters => ∀ w ∈ b,
      (letters[column]?).map UInt8.toNat = w.codeAt? column).mp fun v hv => ?_
    exact (hr.sameTexts.forall_iff fun letters =>
      v.codeAt? column = (letters[column]?).map UInt8.toNat).mp (h.agree column hc v hv)

theorem checks_eq_of_letters {v w : Word} (h : v.letters = w.letters) (columns : List Nat) :
    v.checks columns = w.checks columns := by
  induction columns with
  | nil => rfl
  | cons column rest ih => simp only [Word.checks, h, ih]

private theorem leaf_relabel (config : Config) {f : Word → Word} {word : Word} (h : (f word).letters = word.letters)
    (columns : Columns) :
    (leaf config (f word) columns).result = (leaf config word columns).result.map (Node.mapWords f) := by
  unfold leaf
  split
  · rfl
  · split
    · rfl
    · simp only [Traced.result_bind, Traced.result_lift, checks_eq_of_letters h]
      cases word.checks columns.pending <;> rfl

private theorem map_bind_pure {α β γ δ : Type} {result : Except BuildError α} {f : α → β} {g : β → γ} {f' : α → δ}
    {g' : δ → γ} (h : ∀ value, g (f value) = g' (f' value)) :
    (result.map f >>= fun value => pure (g value)) = (result >>= fun value => pure (f' value)).map g' := by
  cases result with
  | error error => rfl
  | ok value => exact congrArg Except.ok (h value)

private theorem growArms_map {grow : Nat → List Word → Traced Node} {f : Word → Word}
    {groups groups' : Nat → List Word} {keys : List Nat}
    (h : ∀ k ∈ keys, (grow k (groups' k)).result = (grow k (groups k)).result.map (Node.mapWords f)) :
    (growArms grow (keys.map fun k => (k, groups' k))).result =
      (growArms grow (keys.map fun k => (k, groups k))).result.map (mapArms f) := by
  induction keys with
  | nil => rfl
  | cons k rest ih =>
    have hrest := ih fun j hj => h j (List.mem_cons_of_mem k hj)
    simp only [List.map_cons, growArms, Traced.result_bind, h k List.mem_cons_self, hrest]
    cases (grow k (groups k)).result with
    | error error => rfl
    | ok node =>
      cases (growArms grow (rest.map fun k => (k, groups k))).result <;> rfl

theorem growArms_relabel {grow : Nat → List Word → Traced Node} {f : Word → Word} {a b : List Word}
    (hr : Relabels f a b) (key : List UInt8 → Nat)
    (h : ∀ k ∈ ascending (a.map fun word => key word.letters),
      (grow k (groupOf (fun word => key word.letters) b k)).result =
        (grow k (groupOf (fun word => key word.letters) a k)).result.map (Node.mapWords f)) :
    (growArms grow (groupBy (fun word => key word.letters) b)).result =
      (growArms grow (groupBy (fun word => key word.letters) a)).result.map (mapArms f) := by
  rw [groupBy_eq_map, groupBy_eq_map, ← ascending_eq_of_mem_iff (hr.sameTexts.mem_map_iff key)]
  exact growArms_map h

/-- The run for the relabelled words is the run for the words with the leaves relabelled,
failures included. -/
theorem dispatchColumns_relabel (config : Config) {length : Nat} {f : Word → Word} {a b : List Word}
    {columns : Columns} (hf : Fits length a columns) (hr : Relabels f a b) :
    (dispatchColumns config b columns).result =
      (dispatchColumns config a columns).result.map (Node.mapWords f) := by
  induction hf using Fits.induct config generalizing b with
  | @alone word columns _ =>
    obtain ⟨other, rfl⟩ := List.length_eq_one_iff.mp hr.length_eq.symm
    obtain rfl : f word = other := List.mem_singleton.mp (hr.mem word List.mem_cons_self)
    rw [dispatchColumns, dispatchColumns]
    exact leaf_relabel config (hr.letters word List.mem_cons_self) columns
  | exhausted hf hw hp =>
    -- The report lists the words in order, and the two orders differ; but these are copies.
    obtain ⟨letters, he⟩ := hf.exists_replicate hp
    rw [hf.exhausted_result config hw hp, (hf.relabel hr).exhausted_result config (hr.length_eq ▸ hw) hp,
      hr.map_text_eq he]
    rfl
  | @dispatch a columns choice remaining hf hw hc hremaining ih =>
    have harms : (growArms (fun _ group => dispatchColumns config group remaining)
        (groupBy (codeIn choice.column) b)).result =
          (growArms (fun _ group => dispatchColumns config group remaining)
            (groupBy (codeIn choice.column) a)).result.map (mapArms f) :=
      growArms_relabel hr (codeOf choice.column) fun k hk => (ih k hk).2 (hr.group (codeOf choice.column) k)
    rw [hf.dispatch_result hw hc hremaining,
      (hf.relabel hr).dispatch_result (hr.length_eq ▸ hw) (hr.sameTexts.choose_eq hc) hremaining, harms]
    exact map_bind_pure fun _ => rfl

/-- The word of a list that has the text of a given word. -/
def relabel (words : List Word) (word : Word) : Word := (words.find? fun other => other.text == word.text).getD word

theorem relabel_mem {words : List Word} {word : Word} (h : word.text ∈ words.map Word.text) :
    relabel words word ∈ words ∧ (relabel words word).text = word.text := by
  obtain ⟨other, ho, he⟩ := List.mem_map.mp h
  have hsome : (words.find? fun other => other.text == word.text).isSome :=
    List.find?_isSome.mpr ⟨other, ho, by simpa using he⟩
  obtain ⟨found, hf⟩ := Option.isSome_iff_exists.mp hsome
  rw [relabel, hf, Option.getD_some]
  exact ⟨List.mem_of_find?_eq_some hf, by simpa using List.find?_some hf⟩

private theorem relabels_canonical {a b : List Word} (h : a.map Word.text = b.map Word.text) :
    Relabels (relabel b) (canonical a) (canonical b) := by
  have hletters (words : List Word) : words.map Word.letters = (words.map Word.text).map Text.encode := by
    rw [List.map_map]
    exact List.map_congr_left fun word _ => word.encode_text.symm
  have hspec (word : Word) (hw : word ∈ canonical a) : relabel b word ∈ b ∧ (relabel b word).text = word.text :=
    relabel_mem (h ▸ List.mem_map_of_mem ((canonical_perm a).mem_iff.mp hw))
  refine ⟨?_, fun word hw => (canonical_perm b).mem_iff.mpr (hspec word hw).1, fun word hw => ?_⟩
  · calc
      ((canonical a).map Word.letters).Perm (a.map Word.letters) := (canonical_perm a).map _
      _ = b.map Word.letters := by rw [hletters, h, ← hletters]
      List.Perm _ ((canonical b).map Word.letters) := ((canonical_perm b).map _).symm
  · exact (Word.text_eq_text_iff _ _).mp (hspec word hw).2

theorem build_relabel (config : Config) {a b : List Word} (h : a.map Word.text = b.map Word.text) :
    (build config b).result =
      (build config a).result.map fun tree => ⟨canonical b, tree.root.mapWords (relabel b)⟩ := by
  by_cases hne : a = []
  · obtain rfl : b = [] := List.map_eq_nil_iff.mp (by rw [← h, hne, List.map_nil])
    rw [hne]
    rfl
  · have hne' : b ≠ [] := fun hb => hne (List.map_eq_nil_iff.mp (by rw [h, hb, List.map_nil]))
    have hr := relabels_canonical h
    have harms : (growArms (fun length group => dispatchColumns config group (Columns.all length))
        (byLength (canonical b))).result = (growArms (fun length group => dispatchColumns config group
          (Columns.all length)) (byLength (canonical a))).result.map (mapArms (relabel b)) :=
      growArms_relabel hr List.length fun k hk =>
        dispatchColumns_relabel config (Fits.start (canonical a) hk) (hr.group List.length k)
    have hkeys : ascending ((canonical a).map Word.length) = ascending ((canonical b).map Word.length) :=
      ascending_eq_of_mem_iff (hr.sameTexts.mem_map_iff List.length)
    have hcount : (byLength (canonical b)).length = (byLength (canonical a)).length := by
      simp [byLength, groupBy_eq_map, hkeys]
    rw [build_result config hne, build_result config hne', hcount, harms]
    exact map_bind_pure fun _ => rfl

/-- Indices decide nothing but the labels of the leaves. For two corpora with the same
text at every position a construction fails in both cases, with one error, or in none; and
then the second root is the first with each word exchanged for the one word of the second
corpus that has its text. -/
theorem build_eq_up_to_labels (config : Config) {a b : List Word} (h : a.map Word.text = b.map Word.text) :
    (∀ error, (build config a).result = .error error ↔ (build config b).result = .error error) ∧
    ∀ tree, (build config a).result = .ok tree → ∃ other, (build config b).result = .ok other ∧
      other.root = tree.root.mapWords (relabel b) ∧
      ∀ route ∈ tree.root.routes, ∀ word, word ∈ b ∧ word.text = route.word.text ↔ word = relabel b route.word := by
  have hb := build_relabel config h
  refine ⟨fun error => ?_, fun tree ht => ?_⟩
  · rw [hb]
    cases (build config a).result <;> simp [Except.map]
  · rw [ht] at hb
    refine ⟨_, hb, rfl, fun route hm word => ?_⟩
    have hroute : route.word ∈ a := (build_words_perm ht).mem_iff.mp (List.mem_map_of_mem hm)
    obtain ⟨hmem, htext⟩ := relabel_mem (h ▸ List.mem_map_of_mem hroute : route.word.text ∈ b.map Word.text)
    constructor
    · rintro ⟨hw, he⟩
      exact List.inj_on_of_nodup_map (distinct_of_build hb) hw hmem
        ((Word.text_eq_text_iff _ _).mp (he.trans htext.symm))
    · rintro rfl
      exact ⟨hmem, htext⟩

/-- The words `as`, `is` and `it` with the given indices. -/
def asIsIt (i j k : Nat) : List Word :=
  [⟨i, [97, 115], by decide, by decide⟩, ⟨j, [105, 115], by decide, by decide⟩,
    ⟨k, [105, 116], by decide, by decide⟩]

theorem build_eq_up_to_labels_asIsIt : (asIsIt 0 1 2).map Word.text = (asIsIt 7 7 3).map Word.text ∧
    ∃ tree other, (build {} (asIsIt 0 1 2)).result = .ok tree ∧ (build {} (asIsIt 7 7 3)).result = .ok other ∧
      tree.words.map Word.text = ["as", "is", "it"] ∧ other.words.map Word.text = ["it", "as", "is"] ∧
      other.root = tree.root.mapWords (relabel (asIsIt 7 7 3)) := by
  have h : (asIsIt 0 1 2).map Word.text = (asIsIt 7 7 3).map Word.text := rfl
  have hne : asIsIt 0 1 2 ≠ [] := by simp [asIsIt]
  obtain ⟨tree, ht⟩ := exists_build {} hne (by decide +kernel)
  obtain ⟨other, ho, hroot, _⟩ := (build_eq_up_to_labels {} h).2 tree ht
  refine ⟨h, tree, other, ht, ho, ?_, ?_, hroot⟩
  · rw [(build_inv ht).2.1, canonical_eq_insertionSort]
    decide +kernel
  · rw [(build_inv ho).2.1, canonical_eq_insertionSort]
    decide +kernel

end KeywordTree
