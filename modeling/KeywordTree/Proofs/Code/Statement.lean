import KeywordTree.Listing
import KeywordTree.Proofs.Code.Token

/-! Programs in the manner of C over the names of a vocabulary: tests, switches and calls
that end a run. What is written for a program is read back as that program. -/
namespace KeywordTree.Code

inductive Verdict where
  | matched (index : Nat)
  | guessed (index : Nat)
  | rejected
  deriving DecidableEq, Repr

structure Test where
  subject : Subject
  value : Nat
  deriving DecidableEq, Repr

inductive Stmt where
  | ifAll (tests : List Test) (body : List Stmt)
  | switch (subject : Subject) (cases : List (Nat × List Stmt))
  | exit (verdict : Verdict)

/-! Reading. Every reader returns what it has read and the tokens after it. -/

def expect (token : Token) : List Token → Option (List Token)
  | [] => none
  | first :: rest => if first = token then some rest else none

def subject? (names : Vocabulary) : List Token → Option (Subject × List Token)
  | .name n :: .opening :: .closing :: rest => if n = names.length then some (.length, rest) else none
  | .name n :: .opening :: .number k :: .closing :: rest =>
    if n = names.charAt then some (.column k, rest) else none
  | _ => none

def value? : List Token → Option (Nat × List Token)
  | .number n :: rest => some (n, rest)
  | .letter code :: rest => some (code, rest)
  | _ => none

def test? (names : Vocabulary) (tokens : List Token) : Option (Test × List Token) := do
  let (subject, rest) ← subject? names tokens
  let rest ← expect .equal rest
  let (value, rest) ← value? rest
  some (⟨subject, value⟩, rest)

/-- One test or several with `&&` between them. The first argument bounds their number. -/
def tests? (names : Vocabulary) : Nat → List Token → Option (List Test × List Token)
  | 0, _ => none
  | fuel + 1, tokens => do
    let (test, rest) ← test? names tokens
    match rest with
    | .both :: rest => do
      let (more, rest) ← tests? names fuel rest
      some (test :: more, rest)
    | rest => some ([test], rest)

def verdict? (names : Vocabulary) : List Token → Option (Verdict × List Token)
  | .name n :: .opening :: .closing :: rest => if n = names.noMatch then some (.rejected, rest) else none
  | .name n :: .opening :: .number i :: .closing :: rest =>
    if n = names.matched then some (.matched i, rest)
    else if n = names.guessMatch then some (.guessed i, rest)
    else none
  | _ => none

mutual

/-- Statements up to the end of the block or the next label. A switch may not have two
labels of one value. The first argument bounds the length and depth. -/
def block? (names : Vocabulary) : Nat → List Token → Option (List Stmt × List Token)
  | 0, _ => none
  | fuel + 1, .ifWord :: .opening :: rest => do
    let (tests, rest) ← tests? names fuel rest
    let rest ← expect .closing rest
    let rest ← expect .blockStart rest
    let (body, rest) ← block? names fuel rest
    let rest ← expect .blockEnd rest
    let (more, rest) ← block? names fuel rest
    some (.ifAll tests body :: more, rest)
  | fuel + 1, .switchWord :: .opening :: rest => do
    let (subject, rest) ← subject? names rest
    let rest ← expect .closing rest
    let rest ← expect .blockStart rest
    let (cases, rest) ← cases? names fuel rest
    let rest ← expect .blockEnd rest
    if (cases.map Prod.fst).Nodup then
      let (more, rest) ← block? names fuel rest
      some (.switch subject cases :: more, rest)
    else none
  | fuel + 1, .name n :: rest => do
    let (verdict, rest) ← verdict? names (.name n :: rest)
    let (more, rest) ← block? names fuel rest
    some (.exit verdict :: more, rest)
  | _ + 1, rest => some ([], rest)

def cases? (names : Vocabulary) : Nat → List Token → Option (List (Nat × List Stmt) × List Token)
  | 0, _ => none
  | fuel + 1, .caseWord :: rest => do
    let (value, rest) ← value? rest
    let rest ← expect .colon rest
    let (body, rest) ← block? names fuel rest
    let (more, rest) ← cases? names fuel rest
    some ((value, body) :: more, rest)
  | _ + 1, rest => some ([], rest)

end

def program? (names : Vocabulary) (text : String) : Option (List Stmt) := do
  let tokens ← Token.ofText? text.toList
  match block? names (tokens.length + 1) tokens with
  | some (block, []) => some block
  | _ => none

/-! Writing. -/

def subjectTokens (names : Vocabulary) : Subject → List Token
  | .length => [.name names.length, .opening, .closing]
  | .column k => [.name names.charAt, .opening, .number k, .closing]

/-- A length is a number and the code in a column a character. -/
def valueToken : Subject → Nat → Token
  | .length, n => .number n
  | .column _, code => .letter code

def Test.tokens (names : Vocabulary) (test : Test) : List Token :=
  subjectTokens names test.subject ++ [.equal, valueToken test.subject test.value]

def testsTokens (names : Vocabulary) : List Test → List Token
  | [] => []
  | [test] => test.tokens names
  | test :: second :: rest => test.tokens names ++ .both :: testsTokens names (second :: rest)

def Verdict.tokens (names : Vocabulary) : Verdict → List Token
  | matched i => [.name names.matched, .opening, .number i, .closing]
  | guessed i => [.name names.guessMatch, .opening, .number i, .closing]
  | rejected => [.name names.noMatch, .opening, .closing]

mutual

def Stmt.tokens (names : Vocabulary) : Stmt → List Token
  | .ifAll tests body =>
    .ifWord :: .opening :: (testsTokens names tests ++
      .closing :: .blockStart :: (blockTokens names body ++ [.blockEnd]))
  | .switch subject cases =>
    .switchWord :: .opening :: (subjectTokens names subject ++
      .closing :: .blockStart :: (casesTokens names subject cases ++ [.blockEnd]))
  | .exit verdict => verdict.tokens names

def blockTokens (names : Vocabulary) : List Stmt → List Token
  | [] => []
  | stmt :: rest => stmt.tokens names ++ blockTokens names rest

def casesTokens (names : Vocabulary) (subject : Subject) : List (Nat × List Stmt) → List Token
  | [] => []
  | (value, body) :: rest =>
    .caseWord :: valueToken subject value :: .colon ::
      (blockTokens names body ++ casesTokens names subject rest)

end

theorem blockTokens_append (names : Vocabulary) (a b : List Stmt) :
    blockTokens names (a ++ b) = blockTokens names a ++ blockTokens names b := by
  induction a with
  | nil => rfl
  | cons stmt rest ih => rw [List.cons_append, blockTokens, blockTokens, ih, List.append_assoc]

/-- Statements that can be written: something is tested, and labels are distinct. -/
inductive Stmt.Regular : Stmt → Prop where
  | ifAll {tests : List Test} {body : List Stmt} (ht : tests ≠ []) (hb : ∀ stmt ∈ body, stmt.Regular) :
    Stmt.Regular (.ifAll tests body)
  | switch {subject : Subject} {cases : List (Nat × List Stmt)} (hk : (cases.map Prod.fst).Nodup)
    (hc : ∀ arm ∈ cases, ∀ stmt ∈ arm.2, stmt.Regular) : Stmt.Regular (.switch subject cases)
  | exit (verdict : Verdict) : Stmt.Regular (.exit verdict)

section RoundTrip

variable {names : Vocabulary}

@[simp] theorem expect_cons (token : Token) (rest : List Token) : expect token (token :: rest) = some rest := by
  simp [expect]

@[simp] theorem subject?_tokens (subject : Subject) (rest : List Token) :
    subject? names (subjectTokens names subject ++ rest) = some (subject, rest) := by
  cases subject <;> simp [subjectTokens, subject?]

@[simp] theorem value?_token (subject : Subject) (value : Nat) (rest : List Token) :
    value? (valueToken subject value :: rest) = some (value, rest) := by
  cases subject <;> rfl

@[simp] theorem test?_tokens (test : Test) (rest : List Token) :
    test? names (test.tokens names ++ rest) = some (test, rest) := by
  simp [test?, Test.tokens]

theorem tests?_tokens {tests : List Test} (hne : tests ≠ []) {rest : List Token}
    (hr : ∀ more, rest ≠ .both :: more) {fuel : Nat} (hf : (testsTokens names tests ++ rest).length < fuel) :
    tests? names fuel (testsTokens names tests ++ rest) = some (tests, rest) := by
  induction tests generalizing fuel with
  | nil => exact absurd rfl hne
  | cons test more ih =>
    obtain ⟨fuel, rfl⟩ : ∃ n, fuel = n + 1 := ⟨fuel - 1, by omega⟩
    cases more with
    | nil =>
      rw [testsTokens, tests?, test?_tokens, Option.bind_eq_bind, Option.bind_some]
      dsimp only
      split
      · exact absurd rfl (hr _)
      · rfl
    | cons second others =>
      have hlen : (testsTokens names (second :: others) ++ rest).length < fuel := by
        simp only [testsTokens, Test.tokens, List.length_append, List.length_cons] at hf ⊢
        omega
      rw [testsTokens, List.append_assoc, List.cons_append, tests?, test?_tokens]
      simp [ih (by simp) hlen]

theorem verdict?_tokens (hn : names.guessMatch ≠ names.matched) (verdict : Verdict) (rest : List Token) :
    verdict? names (verdict.tokens names ++ rest) = some (verdict, rest) := by
  cases verdict <;> simp [Verdict.tokens, verdict?, hn]

/-- Tokens from which a block is read, whatever the bound, if it is large enough. -/
def ReadsBlock (names : Vocabulary) (tokens : List Token) (block : List Stmt) (rest : List Token) : Prop :=
  ∀ fuel, tokens.length < fuel → block? names fuel tokens = some (block, rest)

def ReadsCases (names : Vocabulary) (tokens : List Token) (cases : List (Nat × List Stmt))
    (rest : List Token) : Prop :=
  ∀ fuel, tokens.length < fuel → cases? names fuel tokens = some (cases, rest)

theorem ReadsBlock.of_succ {tokens rest : List Token} {block : List Stmt}
    (h : ∀ fuel, tokens.length ≤ fuel → block? names (fuel + 1) tokens = some (block, rest)) :
    ReadsBlock names tokens block rest
  | fuel + 1, hf => h fuel (Nat.le_of_lt_succ hf)

theorem ReadsCases.of_succ {tokens rest : List Token} {cases : List (Nat × List Stmt)}
    (h : ∀ fuel, tokens.length ≤ fuel → cases? names (fuel + 1) tokens = some (cases, rest)) :
    ReadsCases names tokens cases rest
  | fuel + 1, hf => h fuel (Nat.le_of_lt_succ hf)

theorem ReadsBlock.nil : ReadsBlock names [] [] [] := .of_succ fun _ _ => rfl

theorem ReadsBlock.stop {token : Token} (ht : token = .blockEnd ∨ token = .caseWord) (rest : List Token) :
    ReadsBlock names (token :: rest) [] (token :: rest) := by
  refine .of_succ fun fuel _ => ?_
  rcases ht with rfl | rfl <;> rfl

theorem ReadsCases.stop (rest : List Token) : ReadsCases names (.blockEnd :: rest) [] (.blockEnd :: rest) :=
  .of_succ fun _ _ => rfl

/-- A statement that is written in front of a block is read in front of it. -/
def Returns (names : Vocabulary) (stmt : Stmt) : Prop :=
  ∀ {rest final : List Token} {more : List Stmt}, ReadsBlock names rest more final →
    ReadsBlock names (stmt.tokens names ++ rest) (stmt :: more) final

private theorem readsBlock_append {block : List Stmt} (hb : ∀ stmt ∈ block, Returns names stmt)
    {rest final : List Token} {more : List Stmt} (h : ReadsBlock names rest more final) :
    ReadsBlock names (blockTokens names block ++ rest) (block ++ more) final := by
  induction block with
  | nil => exact h
  | cons stmt others ih =>
    rw [blockTokens, List.append_assoc]
    exact hb stmt List.mem_cons_self (ih fun s hs => hb s (List.mem_cons_of_mem stmt hs))

private theorem readsCases_tokens (subject : Subject) {cases : List (Nat × List Stmt)}
    (hc : ∀ arm ∈ cases, ∀ stmt ∈ arm.2, Returns names stmt) (rest : List Token) :
    ReadsCases names (casesTokens names subject cases ++ .blockEnd :: rest) cases (.blockEnd :: rest) := by
  induction cases with
  | nil => exact ReadsCases.stop rest
  | cons arm others ih =>
    have hothers := ih fun a ha => hc a (List.mem_cons_of_mem arm ha)
    -- What follows a body is the next label or the end of the switch.
    have hstop : ReadsBlock names (casesTokens names subject others ++ .blockEnd :: rest) []
        (casesTokens names subject others ++ .blockEnd :: rest) := by
      cases others with
      | nil => exact ReadsBlock.stop (.inl rfl) rest
      | cons next more => exact ReadsBlock.stop (.inr rfl) _
    have hbody := readsBlock_append (hc arm List.mem_cons_self) hstop
    rw [List.append_nil] at hbody
    refine .of_succ fun fuel hf => ?_
    simp only [casesTokens, List.cons_append, List.append_assoc, List.length_cons, List.length_append] at hf hbody ⊢
    rw [cases?]
    simp only [value?_token, Option.bind_eq_bind, Option.bind_some, expect_cons]
    rw [hbody fuel (by simp; omega)]
    simp only [Option.bind_some]
    rw [hothers fuel (by simp; omega)]
    rfl

private theorem readsIf {tests : List Test} {body : List Stmt} (ht : tests ≠ [])
    (hb : ∀ stmt ∈ body, Returns names stmt) : Returns names (.ifAll tests body) := by
  intro rest final more h
  refine .of_succ fun fuel hf => ?_
  have hstop : ReadsBlock names (.blockEnd :: rest) [] (.blockEnd :: rest) := .stop (.inl rfl) rest
  have hbody := readsBlock_append hb hstop
  rw [List.append_nil] at hbody
  simp only [Stmt.tokens, List.cons_append, List.append_assoc, List.nil_append, List.length_cons,
    List.length_append] at hf ⊢
  rw [block?, tests?_tokens ht (by simp) (by simp; omega)]
  simp only [Option.bind_eq_bind, Option.bind_some, expect_cons]
  rw [hbody fuel (by simp; omega)]
  simp only [Option.bind_some, expect_cons]
  rw [h fuel (by omega)]
  rfl

private theorem readsSwitch {subject : Subject} {cases : List (Nat × List Stmt)} (hk : (cases.map Prod.fst).Nodup)
    (hc : ∀ arm ∈ cases, ∀ stmt ∈ arm.2, Returns names stmt) : Returns names (.switch subject cases) := by
  intro rest final more h
  refine .of_succ fun fuel hf => ?_
  simp only [Stmt.tokens, List.cons_append, List.append_assoc, List.nil_append, List.length_cons,
    List.length_append] at hf ⊢
  rw [block?, subject?_tokens]
  simp only [Option.bind_eq_bind, Option.bind_some, expect_cons]
  rw [readsCases_tokens subject hc rest fuel (by simp; omega)]
  simp only [Option.bind_some, expect_cons, if_pos hk]
  rw [h fuel (by omega)]
  rfl

private theorem readsExit (hn : names.guessMatch ≠ names.matched) (verdict : Verdict) :
    Returns names (.exit verdict) := by
  intro rest final more h
  refine .of_succ fun fuel hf => ?_
  obtain ⟨name, others, he⟩ : ∃ name others, verdict.tokens names = .name name :: others := by
    cases verdict <;> exact ⟨_, _, rfl⟩
  have hv := verdict?_tokens hn verdict rest
  rw [he] at hv
  rw [Stmt.tokens, he, List.length_append, List.length_cons] at hf
  rw [Stmt.tokens, he, List.cons_append, block?, ← List.cons_append, hv]
  simp only [Option.bind_eq_bind, Option.bind_some]
  rw [h fuel (by omega)]
  rfl

theorem Stmt.Regular.returns (hn : names.guessMatch ≠ names.matched) {stmt : Stmt} (h : stmt.Regular) :
    Returns names stmt := by
  induction h with
  | ifAll ht _ ih => exact readsIf ht ih
  | switch hk _ ih => exact readsSwitch hk ih
  | exit verdict => exact readsExit hn verdict

theorem block?_blockTokens (hn : names.guessMatch ≠ names.matched) {block : List Stmt}
    (hr : ∀ stmt ∈ block, stmt.Regular) {fuel : Nat} (hf : (blockTokens names block).length < fuel) :
    block? names fuel (blockTokens names block) = some (block, []) := by
  have h := readsBlock_append (fun stmt hs => (hr stmt hs).returns hn) ReadsBlock.nil
  rw [List.append_nil, List.append_nil] at h
  exact h fuel hf

/-- A text with the tokens of a program is read as that program. -/
theorem program?_eq_some (hn : names.guessMatch ≠ names.matched) {block : List Stmt}
    (hr : ∀ stmt ∈ block, stmt.Regular) {text : String} (ht : Scans text.toList (blockTokens names block)) :
    program? names text = some block := by
  rw [program?, ht.ofText?, Option.bind_eq_bind, Option.bind_some,
    block?_blockTokens hn hr (Nat.lt_succ_self _)]

end RoundTrip

end KeywordTree.Code
