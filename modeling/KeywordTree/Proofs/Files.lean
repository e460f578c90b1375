import KeywordTree.Files.Directory
import Mathlib.Data.List.Infix

/-! What writing does to files and folders. The content can be read back under the path it was
written to, and every other path keeps what it had: a file is created in a folder that exists,
so no folder comes into being with it. -/
namespace KeywordTree.Directory

variable {directory : Directory} {home : Place}

section Put

theorem lookup_put (directory : Directory) (path other : String) (content : Bytes) :
    (directory.put path content).lookup other =
      if other = path then some (.file content) else directory.lookup other := by
  induction directory with
  | nil => by_cases he : other = path <;> simp [put, he]
  | cons entry rest ih =>
    obtain ⟨name, item⟩ := entry
    rw [put]
    by_cases he : other = name
    · subst he
      by_cases hp : other = path <;> simp [hp]
    · have hb : (other == name) = false := beq_eq_false_iff_ne.mpr he
      split
      · rename_i hname
        subst hname
        simp [List.lookup_cons, hb, he]
      · simp only [List.lookup_cons, hb, ih]

theorem any_put (directory : Directory) (path : String) (content : Bytes) (test : String → Bool) :
    (directory.put path content).any (fun entry => test entry.1) =
      (directory.any (fun entry => test entry.1) || test path) := by
  induction directory with
  | nil => simp [put]
  | cons entry rest ih =>
    obtain ⟨name, item⟩ := entry
    rw [put]
    split
    · rename_i hname
      subst hname
      cases ht : test name <;> simp [ht]
    · simp [ih, Bool.or_assoc]

theorem itemAt?_of_standing {path : String} (h : path ∈ standing home) : directory.itemAt? home path = some .folder :=
  if_pos h

theorem itemAt?_put_self {path : String} (h : path ∉ standing home) (content : Bytes) :
    (directory.put path content).itemAt? home path = some (.file content) := by
  rw [itemAt?, if_neg h, lookup_put, if_pos rfl]

end Put

section Paths

theorem pathOf_cons_cons (first second : String) (rest : List String) :
    (pathOf (first :: second :: rest)).toList = first.toList ++ '/' :: (pathOf (second :: rest)).toList := by
  rw [pathOf, String.intercalate_cons_cons, String.toList_append, String.toList_append, List.append_assoc]
  rfl

theorem isPrefixOf_iff {a b : String} : a.isPrefixOf b = true ↔ a.toList <+: b.toList := by
  rw [String.isPrefixOf]
  simp

/-- What a path begins with up to a slash is the path of some of its first names. -/
theorem exists_initial {names : List String} (hs : ∀ name ∈ names, '/' ∉ name.toList) {path : List Char}
    (h : path ++ ['/'] <+: (pathOf names).toList) :
    ∃ initial, initial ≠ [] ∧ initial ≠ names ∧ initial <+: names ∧ (pathOf initial).toList = path := by
  induction names generalizing path with
  | nil => simp [pathOf] at h
  | cons first rest ih =>
    have hfirst := hs first List.mem_cons_self
    cases rest with
    | nil =>
      have hslash : '/' ∈ (pathOf [first]).toList := h.subset (by simp)
      exact absurd (by simpa [pathOf] using hslash) hfirst
    | cons second more =>
      obtain ⟨tail, ht⟩ := h
      rw [pathOf_cons_cons, List.append_assoc] at ht
      -- The slash is the one after the first name, or it stands in the rest of the path.
      rcases List.append_eq_append_iff.mp ht with ⟨middle, hm, hrest⟩ | ⟨middle, hm, hrest⟩
      · cases middle with
        | nil => exact ⟨[first], by simp, by simp, by simp, by simpa [pathOf] using hm⟩
        | cons c cs =>
          obtain rfl : '/' = c := (List.cons.inj hrest).1
          exact absurd (hm ▸ by simp) hfirst
      · cases middle with
        | nil => exact ⟨[first], by simp, by simp, by simp, by simpa [pathOf] using hm.symm⟩
        | cons c cs =>
          obtain ⟨hc, hlater⟩ := List.cons.inj hrest
          subst hc
          have hprefix : cs ++ ['/'] <+: (pathOf (second :: more)).toList :=
            ⟨tail, (List.append_assoc cs ['/'] tail).trans hlater.symm⟩
          obtain ⟨initial, hne, hproper, hprefix, hpath⟩ :=
            ih (fun name hn => hs name (List.mem_cons_of_mem first hn)) hprefix
          obtain ⟨head, others, rfl⟩ := List.exists_cons_of_ne_nil hne
          refine ⟨first :: head :: others, by simp, by simpa using hproper, ?_, ?_⟩
          · exact List.cons_prefix_cons.mpr ⟨rfl, hprefix⟩
          · rw [pathOf_cons_cons, hpath, hm]

theorem pathFrom_append (home rest : Place) : pathFrom home (home ++ rest) = pathOf rest := by
  simp [pathFrom, List.isPrefixOf_iff_prefix]

theorem pathFrom_outside {place : Place} (h : ¬ home <+: place) : pathFrom home place = "/" ++ pathOf place := by
  simp [pathFrom, List.isPrefixOf_iff_prefix, h]

theorem mem_standing {place : Place} (h : place <+: home) : pathFrom home place ∈ standing home := by
  refine List.mem_map.mpr ⟨place.length, List.mem_range.mpr (Nat.lt_succ_of_le h.length_le), ?_⟩
  rw [← List.prefix_iff_eq_take.mp h]

/-- A path below which the path of a place lies is that of a place on the way there. -/
theorem exists_place_above {names : Place} (hs : ∀ name ∈ names, '/' ∉ name.toList) {path : String}
    (h : (path ++ "/").isPrefixOf (pathFrom home names) = true) :
    path ∈ standing home ∨ ∃ initial, initial <+: names ∧ initial ≠ names ∧ pathFrom home initial = path := by
  have hprefix := isPrefixOf_iff.mp h
  rw [String.toList_append] at hprefix
  by_cases hhome : home <+: names
  · obtain ⟨rest, rfl⟩ := hhome
    rw [pathFrom_append] at hprefix
    obtain ⟨initial, _, hproper, hin, hpath⟩ :=
      exists_initial (fun name hn => hs name (List.mem_append_right home hn)) hprefix
    refine .inr ⟨home ++ initial, (List.prefix_append_right_inj home).mpr hin, by simpa using hproper, ?_⟩
    rw [pathFrom_append, String.toList_inj.mp hpath]
  · -- Outside the working directory a path begins with the slash of the root.
    rw [pathFrom_outside hhome, String.toList_append] at hprefix
    cases hchars : path.toList with
    | nil =>
      left
      obtain rfl : path = "" := String.toList_inj.mp hchars
      have hself : pathFrom home (home ++ []) ∈ standing home := mem_standing (by simp)
      rwa [pathFrom_append] at hself
    | cons first rest =>
      rw [hchars] at hprefix
      obtain ⟨hfirst, hrest⟩ := List.cons_prefix_cons.mp hprefix
      obtain ⟨initial, _, hproper, hin, hpath⟩ := exists_initial hs hrest
      refine .inr ⟨initial, hin, hproper, ?_⟩
      rw [pathFrom_outside fun hi => hhome (hi.trans hin)]
      apply String.toList_inj.mp
      rw [String.toList_append, hpath, hchars, hfirst]
      rfl

end Paths

/-- All is folders on the way to a place, and no name on it holds a slash. -/
structure Anchored (directory : Directory) (home names : Place) : Prop where
  folders : ∀ initial, initial <+: names → initial ≠ names →
    directory.itemAt? home (pathFrom home initial) = some .folder
  slashless : ∀ name ∈ names, '/' ∉ name.toList

/-- One file is created or replaced, and nothing changes under any other path. -/
structure Replaces (home : Place) (before : Directory) (path : String) (content : Bytes) (after : Directory) : Prop where
  file : after.itemAt? home path = some (.file content)
  frame : ∀ other, other ≠ path → after.itemAt? home other = before.itemAt? home other

namespace Anchored

variable {names : Place}

/-- A file below existing folders makes no new folder. -/
theorem replaces (h : directory.Anchored home names)
    (hno : directory.itemAt? home (pathFrom home names) ≠ some .folder) (content : Bytes) :
    Replaces home directory (pathFrom home names) content (directory.put (pathFrom home names) content) := by
  refine ⟨itemAt?_put_self (fun hs => hno (itemAt?_of_standing hs)) content, fun other hother => ?_⟩
  by_cases hstanding : other ∈ standing home
  · rw [itemAt?_of_standing hstanding, itemAt?_of_standing hstanding]
  rw [itemAt?, itemAt?, if_neg hstanding, if_neg hstanding, lookup_put, if_neg hother,
    any_put _ _ _ fun name => (other ++ "/").isPrefixOf name]
  cases hl : directory.lookup other with
  | some item => rfl
  | none =>
    by_cases hp : (other ++ "/").isPrefixOf (pathFrom home names) = true
    · -- A folder that the new file would make is one of those it stands below.
      obtain ⟨initial, hin, hproper, rfl⟩ := (exists_place_above h.slashless hp).resolve_left hstanding
      have hfolder := h.folders initial hin hproper
      rw [itemAt?, if_neg hstanding, hl] at hfolder
      simp only [hp, Bool.or_true]
      exact hfolder.symm
    · rw [Bool.eq_false_iff.mpr hp, Bool.or_false]

theorem nil (directory : Directory) : directory.Anchored home [] where
  folders initial hp hne := absurd (List.prefix_nil.mp hp) hne
  slashless name hn := by cases hn

theorem self (directory : Directory) (hs : ∀ name ∈ home, '/' ∉ name.toList) : directory.Anchored home home where
  folders _ hp _ := itemAt?_of_standing (mem_standing hp)
  slashless := hs

theorem append (h : directory.Anchored home names)
    (hf : directory.itemAt? home (pathFrom home names) = some .folder) {name : String}
    (hs : '/' ∉ name.toList) : directory.Anchored home (names ++ [name]) where
  folders initial hp hne := by
    rcases List.prefix_concat_iff.mp hp with he | hp
    · exact absurd he hne
    · by_cases he : initial = names
      · rw [he, hf]
      · exact h.folders initial hp he
  slashless other ho := by
    rcases List.mem_append.mp ho with ho | ho
    · exact h.slashless other ho
    · rwa [List.mem_singleton.mp ho]

theorem dropLast (h : directory.Anchored home names) : directory.Anchored home names.dropLast where
  folders initial hp hne := by
    refine h.folders initial (hp.trans (List.dropLast_prefix names)) fun he => hne ?_
    subst he
    exact hp.eq_of_length_le (List.dropLast_prefix _).length_le
  slashless name hn := h.slashless name (List.dropLast_subset names hn)

theorem child (h : directory.Anchored home names)
    (hf : directory.itemAt? home (pathFrom home names) = some .folder) {name : String}
    (hs : '/' ∉ name.toList) : directory.Anchored home (Place.child names name) := by
  rw [Place.child]
  split
  · exact h
  · split
    · exact h.dropLast
    · exact h.append hf hs

end Anchored

section Follow

theorem follow_cons_eq {place : Place} {name : String}
    (hf : directory.itemAt? home (pathFrom home place) = some .folder)
    (hl : name.utf8ByteSize ≤ longestName) (rest : List String) :
    directory.follow home place (name :: rest) = directory.follow home (place.child name) rest := by
  rw [follow, hf]
  exact if_neg (Nat.not_lt.mpr hl)

theorem follow_cons_inv {place final : Place} {name : String} {rest : List String}
    (h : directory.follow home place (name :: rest) = .ok final) :
    directory.itemAt? home (pathFrom home place) = some .folder ∧ name.utf8ByteSize ≤ longestName ∧
      directory.follow home (place.child name) rest = .ok final := by
  rw [follow] at h
  cases hi : directory.itemAt? home (pathFrom home place) with
  | none => simp [hi] at h
  | some item =>
    cases item with
    | file content => simp [hi] at h
    | folder =>
      simp only [hi] at h
      split at h
      · cases h
      · rename_i hl
        exact ⟨rfl, Nat.not_lt.mp hl, h⟩

theorem child_empty (place : Place) : place.child "" = place := by
  unfold Place.child
  exact if_pos (.inl rfl)

theorem child_ordinary (place : Place) {name : String} (hne : name ≠ "") (hp : name ≠ "." ∧ name ≠ "..") :
    place.child name = place ++ [name] := by
  simp [Place.child, hne, hp.1, hp.2]

/-- Every place that is reached stands below folders. -/
theorem follow_anchored {place final : Place} {path : List String} (hs : ∀ name ∈ path, '/' ∉ name.toList)
    (hp : directory.Anchored home place) (h : directory.follow home place path = .ok final) :
    directory.Anchored home final := by
  induction path generalizing place with
  | nil =>
    obtain rfl : place = final := Except.ok.inj h
    exact hp
  | cons name rest ih =>
    obtain ⟨hf, _, hrest⟩ := follow_cons_inv h
    exact ih (fun other ho => hs other (List.mem_cons_of_mem name ho)) (hp.child hf (hs name List.mem_cons_self)) hrest

theorem follow_mono {after : Directory}
    (hf : ∀ path, directory.itemAt? home path = some .folder → after.itemAt? home path = some .folder)
    {place final : Place} {path : List String} (h : directory.follow home place path = .ok final) :
    after.follow home place path = .ok final := by
  induction path generalizing place with
  | nil => exact h
  | cons name rest ih =>
    obtain ⟨hfolder, hl, hrest⟩ := follow_cons_inv h
    rw [follow_cons_eq (hf _ hfolder) hl]
    exact ih hrest

private theorem eq_nil_of_filter {path : List String} (hlast : path.getLast? ≠ some "")
    (h : path.filter (· ≠ "") = []) : path = [] := by
  by_contra hne
  have hempty := List.filter_eq_nil_iff.mp h _ (List.getLast_mem hne)
  rw [List.getLast?_eq_some_getLast hne] at hlast
  exact hlast (congrArg some (by simpa using hempty))

theorem follow_of_filter {place folder : Place} {path initial : List String} {name : String}
    (hlast : path.getLast? ≠ some "") (hpath : path.filter (· ≠ "") = initial ++ [name])
    (h : directory.follow home place initial = .ok folder)
    (hf : directory.itemAt? home (pathFrom home folder) = some .folder)
    (hl : name.utf8ByteSize ≤ longestName) : directory.follow home place path = .ok (folder.child name) := by
  induction path generalizing place initial with
  | nil => simp at hpath
  | cons first rest ih =>
    have hlater : rest.getLast? ≠ some "" := by
      cases rest with
      | nil => simp
      | cons second more => simpa using hlast
    by_cases he : first = ""
    · -- An empty name stays where it is, but that has to be a folder.
      subst he
      rw [List.filter_cons_of_neg (by simp)] at hpath
      have hplace : directory.itemAt? home (pathFrom home place) = some .folder := by
        cases initial with
        | nil => rwa [Except.ok.inj h]
        | cons _ _ => exact (follow_cons_inv h).1
      have hshort : "".utf8ByteSize ≤ longestName := by simp
      rw [follow_cons_eq hplace hshort, child_empty]
      exact ih hlater hpath h
    · rw [List.filter_cons_of_pos (by simpa using he)] at hpath
      cases initial with
      | nil =>
        -- Only empty names could follow, and the path does not end in one.
        obtain ⟨rfl, hrest⟩ := List.cons.inj hpath
        rw [eq_nil_of_filter hlater hrest, Except.ok.inj h, follow_cons_eq hf hl]
        rfl
      | cons step steps =>
        obtain ⟨rfl, hrest⟩ := List.cons.inj hpath
        obtain ⟨hplace, hshort, hsteps⟩ := follow_cons_inv h
        rw [follow_cons_eq hplace hshort]
        exact ih hlater hrest hsteps

end Follow

section Names

private theorem of_mem_splitOnP {stop : Char → Bool} {text piece : List Char} (h : piece ∈ text.splitOnP stop) :
    ∀ c ∈ piece, stop c = false := by
  induction text generalizing piece with
  | nil =>
    rw [List.splitOnP_nil] at h
    rw [List.mem_singleton.mp h]
    simp
  | cons first rest ih =>
    rw [List.splitOnP_cons_eq_if_modifyHead] at h
    split at h
    · rcases List.mem_cons.mp h with rfl | h
      · simp
      · exact ih h
    · rename_i hfirst
      obtain ⟨head, tail, hs⟩ := List.exists_cons_of_ne_nil (List.splitOnP_ne_nil stop rest)
      rw [hs, List.modifyHead_cons] at h
      rw [hs] at ih
      rcases List.mem_cons.mp h with rfl | h
      · exact List.forall_mem_cons.mpr ⟨Bool.eq_false_iff.mpr hfirst, ih List.mem_cons_self⟩
      · exact ih (List.mem_cons_of_mem head h)

private theorem getLast?_splitOnP {stop : Char → Bool} {text : List Char} (hne : text ≠ [])
    (h : ∀ c, text.getLast? = some c → stop c = false) : (text.splitOnP stop).getLast? ≠ some [] := by
  induction text with
  | nil => exact absurd rfl hne
  | cons first rest ih =>
    rw [List.splitOnP_cons_eq_if_modifyHead]
    cases rest with
    | nil => simp [h first rfl]
    | cons second more =>
      have hlast := ih (List.cons_ne_nil second more) (by simpa using h)
      obtain ⟨head, tail, hs⟩ := List.exists_cons_of_ne_nil (List.splitOnP_ne_nil stop (second :: more))
      rw [hs] at hlast ⊢
      split
      · rwa [List.getLast?_cons_cons]
      · cases tail with
        | nil => simp
        | cons next others =>
          rw [List.modifyHead_cons, List.getLast?_cons_cons]
          rwa [List.getLast?_cons_cons] at hlast

theorem slash_not_mem_namesOf {path name : String} (h : name ∈ namesOf path) : '/' ∉ name.toList := by
  obtain ⟨piece, hp, rfl⟩ := List.mem_map.mp h
  rw [String.toList_ofList]
  intro hm
  simpa using of_mem_splitOnP hp '/' hm

theorem getLast?_namesOf {path : String} (hne : path ≠ "") (h : path.toList.getLast? ≠ some '/') :
    (namesOf path).getLast? ≠ some "" := by
  have hpiece : (path.toList.splitOnP (· == '/')).getLast? ≠ some [] := by
    refine getLast?_splitOnP (by simpa using hne) fun c hc => beq_eq_false_iff_ne.mpr ?_
    rintro rfl
    exact h hc
  intro hn
  rw [namesOf, List.getLast?_map] at hn
  obtain ⟨piece, hp, he⟩ := Option.map_eq_some_iff.mp hn
  rw [String.ofList_eq_empty_iff.mp he] at hp
  exact hpiece hp

end Names

/-- The file that writing to a path creates or replaces: its last name in a folder that the
names before it lead to. -/
structure Targets (directory : Directory) (home : Place) (path : String) (folder : Place) (name : String) : Prop where
  accepted : refusal? path = none
  unslashed : path.toList.getLast? ≠ some '/'
  way : ∃ initial, (namesOf path).filter (· ≠ "") = initial ++ [name] ∧
    directory.follow home (startOf home path) initial = .ok folder
  isFolder : directory.itemAt? home (pathFrom home folder) = some .folder
  short : name.utf8ByteSize ≤ longestName
  ordinary : name ≠ "." ∧ name ≠ ".."
  noFolder : directory.itemAt? home (pathFrom home (folder ++ [name])) ≠ some .folder

theorem targetIn_inv {folder : Place} {name file : String} {folderOnly : Bool} (hname : name ≠ "")
    (h : directory.targetIn home folder name folderOnly = .ok file) :
    folderOnly = false ∧ (name ≠ "." ∧ name ≠ "..") ∧ name.utf8ByteSize ≤ longestName ∧
      file = pathFrom home (folder ++ [name]) ∧ directory.itemAt? home file ≠ some .folder := by
  rw [targetIn] at h
  split at h
  · cases h
  · rename_i hplain
    simp only [not_or, Bool.not_eq_true] at hplain
    split at h
    · cases h
    · rename_i hl
      simp only at h
      split at h
      · cases h
      · rename_i hfolder
        obtain rfl := Except.ok.inj h
        rw [child_ordinary folder hname hplain.2] at hfolder ⊢
        exact ⟨hplain.1, hplain.2, Nat.not_lt.mp hl, rfl, hfolder⟩

theorem target_inv {path file : String} (h : directory.target home path = .ok file) :
    ∃ folder name, file = pathFrom home (folder ++ [name]) ∧ directory.Targets home path folder name := by
  rw [target] at h
  split at h
  · cases h
  · rename_i hrefusal
    simp only at h
    split at h
    · cases h
    · rename_i name hlast
      split at h
      · cases h
      · rename_i folder hfollow
        split at h
        · cases h
        · cases h
        · rename_i hfolder
          have hway := List.dropLast_append_getLast? name hlast
          have hname : name ≠ "" := by simpa using (List.mem_filter.mp (List.mem_of_getLast? hlast)).2
          obtain ⟨hslash, hplain, hshort, rfl, hno⟩ := targetIn_inv hname h
          exact ⟨folder, name, rfl, hrefusal, by simpa using hslash, ⟨_, hway.symm, hfollow⟩, hfolder, hshort,
            hplain, hno⟩

namespace Targets

variable {path name : String} {folder : Place}

theorem anchored (h : directory.Targets home path folder name) (hhome : ∀ name ∈ home, '/' ∉ name.toList) :
    directory.Anchored home (folder ++ [name]) := by
  obtain ⟨initial, hway, hfollow⟩ := h.way
  have hnames : ∀ other ∈ initial ++ [name], '/' ∉ other.toList := by
    rw [← hway]
    intro other ho
    exact slash_not_mem_namesOf (List.mem_filter.mp ho).1
  obtain ⟨hinitial, hname⟩ := List.forall_mem_append.mp hnames
  refine Anchored.append ?_ h.isFolder (hname name List.mem_cons_self)
  refine follow_anchored hinitial ?_ hfollow
  rw [startOf]
  split
  · exact .nil directory
  · exact .self directory hhome

/-- The path leads to the file, as soon as that exists. -/
theorem follow_eq (h : directory.Targets home path folder name) :
    directory.follow home (startOf home path) (namesOf path) = .ok (folder ++ [name]) := by
  obtain ⟨initial, hway, hfollow⟩ := h.way
  have hpath : path ≠ "" := by
    rintro rfl
    exact absurd h.accepted (by simp [refusal?])
  have hname : name ≠ "" := by
    have hm : name ∈ (namesOf path).filter (· ≠ "") := hway ▸ List.mem_append_right initial List.mem_cons_self
    simpa using (List.mem_filter.mp hm).2
  rw [← child_ordinary folder hname h.ordinary]
  exact follow_of_filter (getLast?_namesOf hpath h.unslashed) hway hfollow h.isFolder h.short

end Targets

/-- Writing to a path replaces the one file that the path names. -/
theorem replaces_target (hhome : ∀ name ∈ home, '/' ∉ name.toList) {path file : String}
    (h : directory.target home path = .ok file) (content : Bytes) :
    Replaces home directory file content (directory.put file content) := by
  obtain ⟨folder, name, rfl, ht⟩ := target_inv h
  exact (ht.anchored hhome).replaces ht.noFolder content

/-- What was written to a path can be read back under it. -/
theorem read_write (hhome : ∀ name ∈ home, '/' ∉ name.toList) {path : String} {content : Bytes} {after : Directory}
    (h : directory.write home path content = .ok after) : after.read home path = .ok content := by
  cases htarget : directory.target home path with
  | error error => simp [write, htarget, Except.map] at h
  | ok file =>
    obtain rfl : directory.put file content = after := by simpa [write, htarget, Except.map] using h
    have hreplaces := replaces_target hhome htarget content
    obtain ⟨folder, name, rfl, ht⟩ := target_inv htarget
    -- The way to the file leads through folders only, and those are still there.
    have hfolders : ∀ path, directory.itemAt? home path = some .folder →
        (directory.put (pathFrom home (folder ++ [name])) content).itemAt? home path = some .folder := by
      intro path hf
      rw [hreplaces.frame path fun he => ht.noFolder (he ▸ hf), hf]
    simp only [read, ht.accepted, follow_mono hfolders ht.follow_eq, hreplaces.file]

end KeywordTree.Directory
