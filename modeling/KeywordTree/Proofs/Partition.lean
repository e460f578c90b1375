import KeywordTree.Proofs.Grouping
import Mathlib.Data.List.Forall2
import Mathlib.Logic.Function.Basic

/-! What the groups of words are, said without the function that makes them, and that a table
filled word by word comes to the same groups once its entries are arranged by key. -/
namespace KeywordTree

/-- The groups of words for the different keys that can be read off them. -/
structure Divides (read : Word → Option Nat) (words : List Word) (groups : List (Nat × List Word)) : Prop where
  ascending_keys : (groups.map Prod.fst).Pairwise (· < ·)
  mem_keys : ∀ key, key ∈ groups.map Prod.fst ↔ ∃ word ∈ words, read word = some key
  nonempty : ∀ group ∈ groups, group.2 ≠ []
  group_eq : ∀ group ∈ groups, group.2 = words.filter fun word => read word == some group.1
  perm : (groups.flatMap Prod.snd).Perm words

/-- The same keys in the same places, and under each the same words in some order. -/
def SameGroups (a b : List (Nat × List Word)) : Prop :=
  List.Forall₂ (fun group group' => group.1 = group'.1 ∧ group.2.Perm group'.2) a b

section GroupBy

variable {key : Word → Nat} {words : List Word}

theorem divides_groupBy {read : Word → Option Nat} (hread : ∀ word ∈ words, read word = some (key word)) :
    Divides read words (groupBy key words) where
  ascending_keys := by
    rw [map_fst_groupBy]
    exact pairwise_ascending _
  mem_keys k := by
    rw [map_fst_groupBy, mem_ascending, List.mem_map]
    refine exists_congr fun word => and_congr_right fun hw => ?_
    rw [hread word hw, Option.some.injEq]
  nonempty group hg := by
    obtain ⟨hk, he⟩ := mem_groupBy.mp hg
    rw [he]
    exact groupOf_ne_nil (mem_ascending.mpr hk)
  group_eq group hg := by
    rw [(mem_groupBy.mp hg).2, groupOf]
    apply List.filter_congr
    intro word hw
    rw [hread word hw]
    rfl
  perm := by
    apply flatMap_arms_perm map_fst_groupBy
    intro group hg
    rw [(mem_groupBy.mp hg).2]

end GroupBy

namespace Divides

variable {read : Word → Option Nat} {words others : List Word} {groups groups' : List (Nat × List Word)}

theorem eq_map (h : Divides read words groups) :
    groups = (groups.map Prod.fst).map fun key => (key, words.filter fun word => read word == some key) := by
  rw [List.map_map]
  conv => lhs; rw [← List.map_id groups]
  apply List.map_congr_left
  intro group hg
  exact Prod.ext rfl (h.group_eq group hg)

theorem keys_eq (h : Divides read words groups) (h' : Divides read others groups') (hp : others.Perm words) :
    groups'.map Prod.fst = groups.map Prod.fst := by
  refine h'.ascending_keys.eq_of_mem_iff h.ascending_keys fun key => ?_
  rw [h.mem_keys, h'.mem_keys]
  exact exists_congr fun word => and_congr_left fun _ => hp.mem_iff

theorem unique (h : Divides read words groups) (h' : Divides read words groups') : groups' = groups := by
  rw [h.eq_map, h'.eq_map, h.keys_eq h' (List.Perm.refl words)]

theorem sameGroups (h : Divides read words groups) (h' : Divides read others groups') (hp : others.Perm words) :
    SameGroups groups' groups := by
  rw [SameGroups, h.eq_map, h'.eq_map, h.keys_eq h' hp, List.forall₂_map_left_iff, List.forall₂_map_right_iff,
    List.forall₂_same]
  intro key _
  exact ⟨rfl, hp.filter _⟩

theorem exists_read (h : Divides read words groups) {word : Word} (hw : word ∈ words) :
    ∃ key, read word = some key := by
  obtain ⟨group, hg, hm⟩ := List.mem_flatMap.mp (h.perm.mem_iff.mpr hw)
  rw [h.group_eq group hg, List.mem_filter, beq_iff_eq] at hm
  exact ⟨group.1, hm.2⟩

end Divides

section Division

variable {words : List Word} {column : Nat}

theorem byLength_eq_iff {groups : List (Nat × List Word)} :
    byLength words = groups ↔ Divides (fun word => some word.length) words groups := by
  have hd : Divides (fun word => some word.length) words (byLength words) := divides_groupBy fun _ _ => rfl
  constructor
  · rintro rfl
    exact hd
  · exact fun h => h.unique hd

theorem byColumn_isOk_iff :
    (∃ groups, byColumn words column = .ok groups) ↔ ∀ word ∈ words, column < word.length := by
  constructor
  · rintro ⟨groups, h⟩
    exact (byColumn_inv h).1
  · exact fun h => ⟨_, byColumn_eq_ok h⟩

theorem byColumn_eq_ok_iff {groups : List (Nat × List Word)} :
    byColumn words column = .ok groups ↔ Divides (fun word => word.codeAt? column) words groups := by
  have hd (hr : ∀ word ∈ words, column < word.length) :
      Divides (fun word => word.codeAt? column) words (groupBy (codeIn column) words) :=
    divides_groupBy fun word hw => codeAt?_eq_some (hr word hw)
  constructor
  · intro h
    obtain ⟨hr, rfl⟩ := byColumn_inv h
    exact hd hr
  · intro h
    have hr : ∀ word ∈ words, column < word.length := by
      intro word hw
      obtain ⟨code, hcode⟩ := h.exists_read hw
      obtain ⟨letter, hletter, _⟩ := Option.map_eq_some_iff.mp hcode
      exact (List.getElem?_eq_some_iff.mp hletter).1
    rw [byColumn_eq_ok hr, h.unique (hd hr)]

theorem byColumn_eq_error_iff {error : BuildError} :
    byColumn words column = .error error ↔ (∃ word ∈ words, word.length ≤ column) ∧ error = .pastEnd column := by
  by_cases hr : ∀ word ∈ words, column < word.length
  · rw [byColumn_eq_ok hr]
    constructor
    · intro h
      cases h
    · rintro ⟨⟨word, hw, hl⟩, _⟩
      exact absurd (hr word hw) (Nat.not_lt.mpr hl)
  · have he : byColumn words column = .error (.pastEnd column) := by
      rw [byColumn, codesAt_eq_error hr]
      rfl
    rw [he, Except.error.injEq]
    constructor
    · rintro rfl
      push Not at hr
      exact ⟨hr, rfl⟩
    · rintro ⟨_, rfl⟩
      rfl

end Division

section Table

variable {key : Word → Nat} {words : List Word} {entries : List (Nat × List Word)}

/-- Enter a word at the end of the group for its key. -/
def enter (key : Word → Nat) (table : Nat → List Word) (word : Word) : Nat → List Word :=
  Function.update table (key word) (table (key word) ++ [word])

/-- The table after the words were entered one by one. A key that does not occur has the empty group. -/
def tableOf (key : Word → Nat) (words : List Word) : Nat → List Word := words.foldl (enter key) fun _ => []

/-- The groups of a table that are not empty, each once, in any order. -/
structure Lists (table : Nat → List Word) (entries : List (Nat × List Word)) : Prop where
  nodup_keys : (entries.map Prod.fst).Nodup
  mem_iff : ∀ entry, entry ∈ entries ↔ entry.2 ≠ [] ∧ entry.2 = table entry.1

theorem enter_groupOf (word : Word) : enter key (groupOf key words) word = groupOf key (words ++ [word]) := by
  funext k
  by_cases hk : k = key word
  · simp [hk, enter, groupOf]
  · simp [enter, groupOf, Function.update_of_ne hk, Ne.symm hk]

theorem tableOf_eq (key : Word → Nat) (words : List Word) : tableOf key words = groupOf key words := by
  -- The words entered so far grow at the end while those to come are taken from the front.
  have hrun (done : List Word) : words.foldl (enter key) (groupOf key done) = groupOf key (done ++ words) := by
    induction words generalizing done with
    | nil => rw [List.foldl_nil, List.append_nil]
    | cons word rest ih => rw [List.foldl_cons, enter_groupOf, ih, List.append_assoc, List.singleton_append]
  exact hrun []

theorem lists_groupBy : Lists (tableOf key words) (groupBy key words) where
  nodup_keys := by
    rw [map_fst_groupBy]
    exact nodup_ascending _
  mem_iff entry := by
    rw [mem_groupBy, tableOf_eq]
    refine and_congr_left fun he => ?_
    rw [he, ← mem_ascending]
    refine ⟨groupOf_ne_nil, fun hne => ?_⟩
    obtain ⟨word, hw⟩ := List.exists_mem_of_ne_nil _ hne
    obtain ⟨hw, hk⟩ := mem_groupOf.mp hw
    exact mem_ascending.mpr (List.mem_map.mpr ⟨word, hw, hk⟩)

/-- The order in which a table gives its entries does not matter once they are arranged. -/
theorem divides_iff_arranged (h : Lists (tableOf key words) entries) (groups : List (Nat × List Word)) :
    Divides (fun word => some (key word)) words groups ↔
      groups.Perm entries ∧ (groups.map Prod.fst).Pairwise (· ≤ ·) := by
  have hd : Divides (fun word => some (key word)) words (groupBy key words) := divides_groupBy fun _ _ => rfl
  have hentries : (groupBy key words).Perm entries :=
    (List.perm_ext_iff_of_nodup lists_groupBy.nodup_keys.of_map h.nodup_keys.of_map).mpr fun entry =>
      (lists_groupBy.mem_iff entry).trans (h.mem_iff entry).symm
  have hsorted : ((groupBy key words).map Prod.fst).Pairwise (· ≤ ·) := hd.ascending_keys.imp Nat.le_of_lt
  constructor
  · intro hg
    rw [hd.unique hg]
    exact ⟨hentries, hsorted⟩
  · rintro ⟨hp, hs⟩
    have hperm := hp.trans hentries.symm
    have heq : groups = groupBy key words := by
      refine hperm.eq_of_pairwise ?_ (List.pairwise_map.mp hs) (List.pairwise_map.mp hsorted)
      intro a b ha hb hab hba
      -- Entries with one key are one entry, so an unstable arrangement is as good as any.
      have hkey : a.1 = b.1 := Nat.le_antisymm hab hba
      have ha' := (mem_groupBy.mp (hperm.mem_iff.mp ha)).2
      have hb' := (mem_groupBy.mp hb).2
      exact Prod.ext hkey (by rw [ha', hb', hkey])
    rw [heq]
    exact hd

end Table

/-- Division by length and by column, for any list of words. The groups that come back are
those of `Divides` and no others: one for each length or letter that occurs, in ascending
order, with the words of that length or letter in the order they had. A column divides the
words if all of them have it, and is reported if one does not. Words in another order have
the same groups with other orders inside. And a table into which the words are entered one by
one has these groups: however it lists them, arranged by key they are the division. -/
theorem groups_partition (words : List Word) :
    (∀ groups, byLength words = groups ↔ Divides (fun word => some word.length) words groups) ∧
    (∀ column groups, byColumn words column = .ok groups ↔ Divides (fun word => word.codeAt? column) words groups) ∧
    (∀ column, (∃ groups, byColumn words column = .ok groups) ↔ ∀ word ∈ words, column < word.length) ∧
    (∀ column error, byColumn words column = .error error ↔
      (∃ word ∈ words, word.length ≤ column) ∧ error = .pastEnd column) ∧
    (∀ others, others.Perm words → SameGroups (byLength others) (byLength words) ∧
      ∀ column groups, byColumn words column = .ok groups →
        ∃ groups', byColumn others column = .ok groups' ∧ SameGroups groups' groups) ∧
    ∀ key entries, Lists (tableOf key words) entries → ∀ groups,
      Divides (fun word => some (key word)) words groups ↔
        groups.Perm entries ∧ (groups.map Prod.fst).Pairwise (· ≤ ·) := by
  refine ⟨fun _ => byLength_eq_iff, fun _ _ => byColumn_eq_ok_iff, fun _ => byColumn_isOk_iff,
    fun _ _ => byColumn_eq_error_iff, fun others hp => ⟨?_, fun column groups h => ?_⟩,
    fun _ _ => divides_iff_arranged⟩
  · exact (byLength_eq_iff.mp rfl).sameGroups (byLength_eq_iff.mp rfl) hp
  · have hr := byColumn_isOk_iff.mp ⟨groups, h⟩
    obtain ⟨groups', h'⟩ := byColumn_isOk_iff.mpr fun word hw => hr word (hp.mem_iff.mp hw)
    exact ⟨groups', h', (byColumn_eq_ok_iff.mp h).sameGroups (byColumn_eq_ok_iff.mp h') hp⟩

/-- The words `old`, twice `we`, and `new`. -/
def oldWeNew : List Word :=
  ⟨5, [111, 108, 100], by decide, by decide⟩ :: (List.replicate 2 ⟨2, [119, 101], by decide, by decide⟩ ++
    [⟨4, [110, 101, 119], by decide, by decide⟩])

/-- Column 1 has two letters and column 2 is missing from a word; the words in reverse have
the same groups, with `new` before `we`. -/
theorem groups_partition_oldWeNew : oldWeNew.reverse.Perm oldWeNew ∧
    (∃ groups groups', byColumn oldWeNew 1 = .ok groups ∧ byColumn oldWeNew.reverse 1 = .ok groups' ∧
      Divides (fun word => word.codeAt? 1) oldWeNew groups ∧ groups.map Prod.fst = [101, 108] ∧
      SameGroups groups' groups ∧ groups' ≠ groups) ∧
    byColumn oldWeNew 2 = .error (.pastEnd 2) := by
  have hp : oldWeNew.reverse.Perm oldWeNew := List.reverse_perm oldWeNew
  obtain ⟨_, hcolumn, hok, herror, hperm, _⟩ := groups_partition oldWeNew
  obtain ⟨groups, h⟩ := (hok 1).mpr (by decide)
  obtain ⟨groups', h', hsame⟩ := (hperm _ hp).2 1 groups h
  have hkeys : (byColumn oldWeNew 1).map (fun groups => groups.map Prod.fst) = .ok [101, 108] := by decide +kernel
  have hdiffer : byColumn oldWeNew.reverse 1 ≠ byColumn oldWeNew 1 := by decide +kernel
  rw [h] at hkeys
  refine ⟨hp, ⟨groups, groups', h, h', (hcolumn 1 groups).mp h, Except.ok.inj hkeys, hsame, ?_⟩,
    (herror 2 _).mpr ⟨by decide, rfl⟩⟩
  rintro rfl
  exact hdiffer (h'.trans h.symm)

end KeywordTree
