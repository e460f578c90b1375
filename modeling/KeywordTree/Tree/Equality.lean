import KeywordTree.Tree.Basic

/-! Equality of decision trees is decidable. -/
namespace KeywordTree

mutual

def Node.decEq : (a b : Node) → Decidable (a = b)
  | .dispatch s m as o, .dispatch s' m' as' o' =>
    if hs : s = s' ∧ m = m' then
      match decEqArms as as', Node.decEq o o' with
      | isTrue ha, isTrue ho => isTrue (by rw [hs.1, hs.2, ha, ho])
      | isFalse ha, _ => isFalse fun h => ha (Node.dispatch.inj h).2.2.1
      | _, isFalse ho => isFalse fun h => ho (Node.dispatch.inj h).2.2.2
    else isFalse fun h => hs ⟨(Node.dispatch.inj h).1, (Node.dispatch.inj h).2.1⟩
  | .verify cs w o, .verify cs' w' o' =>
    if hs : cs = cs' ∧ w = w' then
      match Node.decEq o o' with
      | isTrue ho => isTrue (by rw [hs.1, hs.2, ho])
      | isFalse ho => isFalse fun h => ho (Node.verify.inj h).2.2
    else isFalse fun h => hs ⟨(Node.verify.inj h).1, (Node.verify.inj h).2.1⟩
  | .accept w, .accept w' =>
    if h : w = w' then isTrue (by rw [h]) else isFalse fun e => h (Node.accept.inj e)
  | .guess w n, .guess w' n' =>
    if h : w = w' ∧ n = n' then isTrue (by rw [h.1, h.2]) else isFalse fun e => h (Node.guess.inj e)
  | .reject, .reject => isTrue rfl
  | .dispatch .., .verify .. | .dispatch .., .accept _ | .dispatch .., .guess .. | .dispatch .., .reject
  | .verify .., .dispatch .. | .verify .., .accept _ | .verify .., .guess .. | .verify .., .reject
  | .accept _, .dispatch .. | .accept _, .verify .. | .accept _, .guess .. | .accept _, .reject
  | .guess .., .dispatch .. | .guess .., .verify .. | .guess .., .accept _ | .guess .., .reject
  | .reject, .dispatch .. | .reject, .verify .. | .reject, .accept _ | .reject, .guess .. =>
    isFalse nofun

def decEqArms : (as bs : List (Nat × Node)) → Decidable (as = bs)
  | [], [] => isTrue rfl
  | [], _ :: _ => isFalse nofun
  | _ :: _, [] => isFalse nofun
  | (k, a) :: as, (k', b) :: bs =>
    if hk : k = k' then
      match Node.decEq a b, decEqArms as bs with
      | isTrue ha, isTrue hs => isTrue (by rw [hk, ha, hs])
      | isFalse ha, _ => isFalse fun h => ha (Prod.mk.inj (List.cons.inj h).1).2
      | _, isFalse hs => isFalse fun h => hs (List.cons.inj h).2
    else isFalse fun h => hk (Prod.mk.inj (List.cons.inj h).1).1

end

instance : DecidableEq Node := Node.decEq

deriving instance DecidableEq for Tree

end KeywordTree
