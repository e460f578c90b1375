import Mathlib.Data.List.Basic

/-! The words and marks of code in the manner of C. The text is read character by
character; blanks and comments separate tokens and are skipped. -/
namespace KeywordTree.Code

inductive Token where
  | ifWord
  | switchWord
  | caseWord
  | name (text : String)
  | number (value : Nat)
  | letter (code : Nat)
  | opening
  | closing
  | blockStart
  | blockEnd
  | equal
  | both
  | colon
  deriving DecidableEq, Repr

/-- A name, unless it is one of the words of the language. -/
def Token.ofName (read : List Char) : Token :=
  if read = "if".toList then .ifWord
  else if read = "switch".toList then .switchWord
  else if read = "case".toList then .caseWord
  else .name (String.ofList read)

inductive Reading where
  | between
  | name (read : List Char)
  | number (value : Nat)
  | slash
  /-- Inside a comment, perhaps just after a star. -/
  | comment (star : Bool)
  | equal
  | both
  | quoted
  | literal (code : Nat)
  deriving DecidableEq, Repr

def beginsName (c : Char) : Bool := c.isAlpha || c == '_'

def continuesName (c : Char) : Bool := beginsName c || c.isDigit

/-- The first character of a token or a comment. -/
def begin? (c : Char) : Option (List Token × Reading) :=
  if beginsName c then some ([], .name [c])
  else if c.isDigit then some ([], .number (c.toNat - '0'.toNat))
  else if c.isWhitespace then some ([], .between)
  else if c = '(' then some ([.opening], .between)
  else if c = ')' then some ([.closing], .between)
  else if c = '\x7b' then some ([.blockStart], .between)
  else if c = '\x7d' then some ([.blockEnd], .between)
  else if c = ':' then some ([.colon], .between)
  else if c = '/' then some ([], .slash)
  else if c = '=' then some ([], .equal)
  else if c = '&' then some ([], .both)
  else if c = '\x27' then some ([], .quoted)
  else none

def Reading.step (c : Char) : Reading → Option (List Token × Reading)
  | between => begin? c
  | name read =>
    if continuesName c then some ([], .name (read ++ [c]))
    else (begin? c).map fun out => (Token.ofName read :: out.1, out.2)
  | number value =>
    if c.isDigit then some ([], .number (10 * value + (c.toNat - '0'.toNat)))
    else if beginsName c then none
    else (begin? c).map fun out => (.number value :: out.1, out.2)
  | slash => if c = '*' then some ([], .comment false) else none
  | comment star => if star && c == '/' then some ([], .between) else some ([], .comment (c == '*'))
  | equal => if c = '=' then some ([.equal], .between) else none
  | both => if c = '&' then some ([.both], .between) else none
  | quoted => if c = '\x27' ∨ c = '\x5c' ∨ c = '\n' then none else some ([], .literal c.toNat)
  | literal code => if c = '\x27' then some ([.letter code], .between) else none

def scan : Reading → List Char → Option (List Token × Reading)
  | reading, [] => some ([], reading)
  | reading, c :: rest =>
    match reading.step c with
    | none => none
    | some (tokens, next) => (scan next rest).map fun out => (tokens ++ out.1, out.2)

/-- The tokens of a text. A text may not end inside a comment, a literal or a mark. -/
def Token.ofText? (text : List Char) : Option (List Token) :=
  match scan .between text with
  | some (tokens, .between) => some tokens
  | some (tokens, .name read) => some (tokens ++ [Token.ofName read])
  | some (tokens, .number value) => some (tokens ++ [.number value])
  | _ => none

theorem scan_cons_of_step {r s : Reading} {c : Char} (h : r.step c = some ([], s)) (rest : List Char) :
    scan r (c :: rest) = scan s rest := by
  rw [scan, h]
  simp

theorem scan_append {r s : Reading} {a b : List Char} {ts : List Token} (h : scan r a = some (ts, s)) :
    scan r (a ++ b) = (scan s b).map fun out => (ts ++ out.1, out.2) := by
  induction a generalizing r ts with
  | nil =>
    obtain ⟨rfl, rfl⟩ := Prod.mk.inj (Option.some.inj h)
    simp
  | cons c rest ih =>
    rw [scan] at h
    rw [List.cons_append, scan]
    cases hs : r.step c with
    | none => rw [hs] at h; cases h
    | some out =>
      rw [hs] at h
      obtain ⟨more, hm, he⟩ := Option.map_eq_some_iff.mp h
      obtain ⟨rfl, rfl⟩ := Prod.mk.inj he
      dsimp only
      rw [ih hm, Option.map_map]
      simp [Function.comp_def]

theorem scan_trans {r s t : Reading} {a b : List Char} {ts us : List Token} (ha : scan r a = some (ts, s))
    (hb : scan s b = some (us, t)) : scan r (a ++ b) = some (ts ++ us, t) := by
  rw [scan_append ha, hb]
  rfl

/-- A text that has these tokens and leaves nothing open. -/
def Scans (text : List Char) (tokens : List Token) : Prop := scan .between text = some (tokens, .between)

theorem Scans.ofText? {text : List Char} {tokens : List Token} (h : Scans text tokens) :
    Token.ofText? text = some tokens := by
  rw [Token.ofText?, h]

theorem Scans.append {a b : List Char} {ts us : List Token} (ha : Scans a ts) (hb : Scans b us) :
    Scans (a ++ b) (ts ++ us) := scan_trans ha hb

/-- A mark or blank that ends the token before it. -/
def Separates (c : Char) (tokens : List Token) : Prop :=
  begin? c = some (tokens, .between) ∧ continuesName c = false

theorem Separates.scans {c : Char} {tokens : List Token} (h : Separates c tokens) : Scans [c] tokens := by
  rw [Scans, scan, Reading.step, h.1]
  simp [scan]

def IsName (text : String) : Prop :=
  (∃ c rest, text.toList = c :: rest ∧ beginsName c = true ∧ ∀ d ∈ rest, continuesName d = true) ∧
    Token.ofName text.toList = .name text

theorem IsName.continues {text : String} (h : IsName text) : ∀ c ∈ text.toList, continuesName c = true := by
  obtain ⟨⟨c, rest, he, hc, hr⟩, _⟩ := h
  rw [he, List.forall_mem_cons]
  exact ⟨by rw [continuesName, hc, Bool.true_or], hr⟩

theorem IsName.not_mem {text : String} (h : IsName text) {c : Char} (hc : continuesName c = false) :
    c ∉ text.toList := by
  intro hm
  rw [h.continues c hm] at hc
  cases hc

private theorem scan_name_rest (read : List Char) {rest : List Char} (h : ∀ d ∈ rest, continuesName d = true) :
    scan (.name read) rest = some ([], .name (read ++ rest)) := by
  induction rest generalizing read with
  | nil => simp [scan]
  | cons d rest ih =>
    have hd := h d List.mem_cons_self
    have hr := ih (read ++ [d]) fun e he => h e (List.mem_cons_of_mem d he)
    rw [scan_cons_of_step (by rw [Reading.step, if_pos hd]), hr, List.append_assoc]
    rfl

theorem scans_call {text : String} (h : IsName text) : Scans (text.toList ++ ['(']) [.name text, .opening] := by
  obtain ⟨⟨c, rest, he, hc, hr⟩, hn⟩ := h
  have hname : scan .between text.toList = some ([], .name text.toList) := by
    rw [he, scan_cons_of_step (by rw [Reading.step, begin?, if_pos hc]), scan_name_rest [c] hr]
    rfl
  rw [Scans, scan_append hname, ← hn]
  rfl

private theorem scan_digits (value : Nat) {digits : List Char} (h : ∀ d ∈ digits, d.isDigit = true) :
    scan (.number value) digits = some ([], .number (Nat.ofDigitChars 10 digits value)) := by
  induction digits generalizing value with
  | nil => rfl
  | cons d rest ih =>
    have hd := h d List.mem_cons_self
    have hr := ih (10 * value + (d.toNat - '0'.toNat)) fun e he => h e (List.mem_cons_of_mem d he)
    rw [Nat.ofDigitChars_cons, scan_cons_of_step (by rw [Reading.step, if_pos hd]), hr]

private theorem beginsName_of_isDigit {c : Char} (h : c.isDigit = true) : beginsName c = false := by
  have hc : 48 ≤ c.toNat ∧ c.toNat ≤ 57 := by
    simpa [Char.isDigit, UInt32.le_iff_toNat_le, ← Char.toNat_val] using h
  have hne : c ≠ '_' := by
    rintro rfl
    exact absurd h (by decide)
  have halpha : c.isAlpha = false := by
    delta Char.isAlpha Char.isUpper Char.isLower
    simp [UInt32.le_iff_toNat_le]
    omega
  simp [beginsName, halpha, hne]

theorem scans_number (n : Nat) {c : Char} {tokens : List Token} (hc : Separates c tokens) :
    Scans ((toString n).toList ++ [c]) (.number n :: tokens) := by
  obtain ⟨hb, hdigit⟩ := Bool.or_eq_false_iff.mp hc.2
  have hdigits : ∀ d ∈ Nat.toDigits 10 n, d.isDigit = true := fun d hm =>
    Nat.isDigit_of_mem_toDigits (by decide) (by decide) hm
  have hvalue : Nat.ofDigitChars 10 (Nat.toDigits 10 n) 0 = n := Nat.ofDigitChars_ten_toDigits
  have hlist : (toString n).toList = Nat.toDigits 10 n := Nat.toList_repr
  have hscan : scan .between (Nat.toDigits 10 n) = some ([], .number n) := by
    obtain ⟨first, rest, he⟩ := List.exists_cons_of_ne_nil (Nat.toDigits_ne_nil (n := n) (b := 10))
    rw [he] at hdigits hvalue ⊢
    have hf := hdigits first List.mem_cons_self
    rw [Nat.ofDigitChars_cons, Nat.mul_zero, Nat.zero_add] at hvalue
    have hstep : Reading.between.step first = some ([], .number (first.toNat - '0'.toNat)) := by
      rw [Reading.step, begin?, beginsName_of_isDigit hf, if_neg Bool.false_ne_true, if_pos hf]
    rw [scan_cons_of_step hstep, scan_digits _ fun d hm => hdigits d (List.mem_cons_of_mem first hm), hvalue]
  rw [Scans, hlist, scan_append hscan]
  simp [scan, Reading.step, hb, hdigit, hc.1]

theorem scan_comment {text : List Char} (h : '*' ∉ text) :
    scan (.comment false) text = some ([], .comment false) := by
  induction text with
  | nil => rfl
  | cons c rest ih =>
    have hne : c ≠ '*' := fun he => h (he ▸ List.mem_cons_self)
    have hr := ih fun hm => h (List.mem_cons_of_mem c hm)
    have hstep : (Reading.comment false).step c = some ([], .comment false) := by
      rw [Reading.step, Bool.false_and, if_neg Bool.false_ne_true, beq_false_of_ne hne]
    rw [scan_cons_of_step hstep, hr]

theorem scans_blanks (n : Nat) : Scans (List.replicate n ' ') [] := by
  induction n with
  | zero => rfl
  | succ n ih =>
    rw [List.replicate_succ]
    exact Scans.append (a := [' ']) rfl ih

end KeywordTree.Code
