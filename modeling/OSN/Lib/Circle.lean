import Mathlib.Data.List.Chain
import Mathlib.Data.List.Nodup
import Mathlib.Logic.Function.Basic
import Mathlib.Tactic.Common

/-!
# Circular doubly linked lists

Each node points to the next and to the previous one, and the list is entered at
a head, which carries nothing.  `LinkedCircle` says that the pointers go through a
list of nodes, once each, and back to the head, in both directions.  It is kept
when a node is taken out (`LinkedCircle.unlink`) or put in behind the head
(`LinkedCircle.pushFront`), and what a loop through the list finds is what there is to
find in the list of nodes (`LinkedCircle.search_next`, `LinkedCircle.search_prev`).
-/

variable {α : Type}

/-- The pointers of all nodes. -/
structure Links (α : Type) where
  next : α → α
  prev : α → α

namespace Links

/-- The two pointers between neighbours. -/
def Joined (r : Links α) (x y : α) : Prop :=
  r.next x = y ∧ r.prev y = x

section

variable [DecidableEq α]

/-- `b->next->prev = b->prev; b->prev->next = b->next`. -/
def unlink (r : Links α) (b : α) : Links α :=
  let prev := Function.update r.prev (r.next b) (r.prev b)
  { next := Function.update r.next (prev b) (r.next b)
    prev := prev }

/-- `b->next = head->next; b->prev = head; head->next->prev = b; head->next = b`. -/
def pushFront (r : Links α) (head b : α) : Links α :=
  let next := Function.update r.next b (r.next head)
  let prev := Function.update r.prev b head
  { next := Function.update next head b
    prev := Function.update prev (next head) b }

end

end Links

/-- The pointers go from the head through the nodes of `l`, once each, and back to
the head, in both directions. -/
structure LinkedCircle (r : Links α) (head : α) (l : List α) : Prop where
  nodup : (head :: l).Nodup
  chain : (head :: (l ++ [head])).IsChain r.Joined

/-- A loop `for(b = f(head); b != head; b = f(b))` that stops where `test` passes.
`none` means that it has not come to an end after `fuel` nodes. -/
def searchLinks [DecidableEq α] (f : α → α) (test : α → Bool) (head : α) :
    Nat → α → Option (Option α)
  | 0, _ => none
  | fuel + 1, b =>
      if b = head then some none
      else if test b then some (some b)
      else searchLinks f test head fuel (f b)

variable {r : Links α} {head b : α} {l : List α} {f : α → α} {test : α → Bool}

namespace LinkedCircle

theorem head_notMem (h : LinkedCircle r head l) : head ∉ l :=
  (List.nodup_cons.mp h.nodup).1

theorem nodup_nodes (h : LinkedCircle r head l) : l.Nodup :=
  (List.nodup_cons.mp h.nodup).2

/-- The nodes behind the head, as a loop along `next` meets them. -/
theorem chain_next (h : LinkedCircle r head l) : (head :: (l ++ [head])).IsChain (r.next · = ·) :=
  h.chain.imp fun _ _ hjoined => hjoined.1

/-- The nodes before the head, as a loop along `prev` meets them. -/
theorem chain_prev (h : LinkedCircle r head l) :
    (head :: (l.reverse ++ [head])).IsChain (r.prev · = ·) := by
  have hreverse : head :: (l.reverse ++ [head]) = (head :: (l ++ [head])).reverse := by
    simp
  rw [hreverse, List.isChain_reverse]
  exact h.chain.imp fun _ _ hjoined => hjoined.2

/-- A head that points to itself. -/
theorem nil (hnext : r.next head = head) (hprev : r.prev head = head) : LinkedCircle r head [] := by
  constructor
  · simp
  · simp [Links.Joined, hnext, hprev]

end LinkedCircle

section

variable [DecidableEq α]

theorem searchLinks_eq {a : α} {fuel : Nat} (hchain : (a :: (l ++ [head])).IsChain (f · = ·))
    (hhead : head ∉ l) (hfuel : l.length < fuel) :
    searchLinks f test head fuel (f a) = some (l.find? test) := by
  induction l generalizing a fuel with
  | nil =>
      obtain ⟨fuel, rfl⟩ := Nat.exists_eq_succ_of_ne_zero (Nat.ne_of_gt hfuel)
      have ha : f a = head := by simpa using hchain
      simp [searchLinks, ha]
  | cons x l ih =>
      obtain ⟨fuel, rfl⟩ := Nat.exists_eq_succ_of_ne_zero (Nat.ne_of_gt (Nat.zero_lt_of_lt hfuel))
      rw [List.cons_append, List.isChain_cons_cons] at hchain
      have hx : x ≠ head := fun hx => hhead (hx ▸ List.mem_cons_self)
      rw [hchain.1]
      simp only [searchLinks, hx, ↓reduceIte]
      cases htest : test x with
      | true => simp [htest]
      | false =>
          rw [List.find?_cons, htest]
          exact ih hchain.2 (fun h => hhead (List.mem_cons_of_mem x h))
            (Nat.lt_of_succ_lt_succ hfuel)

namespace LinkedCircle

/-- **A loop along `next`** finds the first node that passes the test. -/
theorem search_next (h : LinkedCircle r head l) {fuel : Nat} (hfuel : l.length < fuel) :
    searchLinks r.next test head fuel (r.next head) = some (l.find? test) :=
  searchLinks_eq h.chain_next h.head_notMem hfuel

/-- **A loop along `prev`** finds the last node that passes the test. -/
theorem search_prev (h : LinkedCircle r head l) {fuel : Nat} (hfuel : l.length < fuel) :
    searchLinks r.prev test head fuel (r.prev head) = some (l.reverse.find? test) :=
  searchLinks_eq h.chain_prev (by simpa using h.head_notMem) (by simpa using hfuel)

/-- **A node is put in behind the head.** -/
theorem pushFront (h : LinkedCircle r head l) (hb : b ≠ head) (hnew : b ∉ l) :
    LinkedCircle (r.pushFront head b) head (b :: l) := by
  constructor
  · simp [List.nodup_cons, Ne.symm hb, h.head_notMem, hnew, h.nodup_nodes]
  · -- `n` is what stood behind the head, the head itself perhaps
    obtain ⟨n, rest, hrest⟩ : ∃ n rest, l ++ [head] = n :: rest :=
      List.exists_cons_of_ne_nil (by simp)
    have hchain := h.chain
    rw [hrest, List.isChain_cons_cons] at hchain
    obtain ⟨hjoined, hchain⟩ := hchain
    have hnodup : (n :: rest).Nodup := by
      rw [← hrest]
      exact (List.perm_append_singleton head l).nodup_iff.mpr h.nodup
    have hn : n ∉ rest := (List.nodup_cons.mp hnodup).1
    have hbmem : ∀ x ∈ n :: rest, x ≠ b := by
      intro x hx hxb
      rw [← hrest, hxb, List.mem_append, List.mem_singleton] at hx
      exact hx.elim hnew hb
    have hnb : n ≠ b := hbmem n List.mem_cons_self
    rw [List.cons_append, hrest, List.isChain_cons_cons, List.isChain_cons_cons]
    refine ⟨?_, ?_, ?_⟩
    · constructor
      · simp [Links.pushFront]
      · simp [Links.pushFront, Function.update_of_ne (Ne.symm hb), hjoined.1,
          Function.update_of_ne (Ne.symm hnb)]
    · constructor
      · simp [Links.pushFront, Function.update_of_ne hb, hjoined.1]
      · simp [Links.pushFront, Function.update_of_ne (Ne.symm hb), hjoined.1]
    · apply hchain.imp_of_mem_tail_imp
      intro x y hx hy hxy
      have hyn : y ≠ n := fun hyn => hn (hyn ▸ hy)
      have hxhead : x ≠ head := by
        intro hxhead
        rw [hxhead] at hxy
        exact hyn (hxy.1.symm.trans hjoined.1)
      have hxb := hbmem x hx
      have hyb := hbmem y (List.mem_cons_of_mem n hy)
      constructor
      · simp only [Links.pushFront, Function.update_of_ne hxhead, Function.update_of_ne hxb]
        exact hxy.1
      · simp only [Links.pushFront, Function.update_of_ne (Ne.symm hb), hjoined.1,
          Function.update_of_ne hyn, Function.update_of_ne hyb]
        exact hxy.2

/-- Nodes are put in behind the head one after the other. -/
theorem pushAll {m : List α} (h : LinkedCircle r head l) (hm : (m ++ l).Nodup) (hhead : head ∉ m) :
    LinkedCircle (m.foldl (fun r b => r.pushFront head b) r) head (m.reverse ++ l) := by
  induction m generalizing r l with
  | nil => exact h
  | cons b m ih =>
      rw [List.cons_append, List.nodup_cons, List.mem_append, not_or] at hm
      rw [List.mem_cons, not_or] at hhead
      have hpush := h.pushFront (Ne.symm hhead.1) hm.1.2
      have hnodup : (m ++ b :: l).Nodup := by
        rw [List.nodup_middle, List.nodup_cons, List.mem_append, not_or]
        exact hm
      rw [List.reverse_cons, List.append_assoc]
      exact ih hpush hnodup hhead.2

/-- **A node is taken out.** -/
theorem unlink (h : LinkedCircle r head l) (hb : b ∈ l) :
    LinkedCircle (r.unlink b) head (l.erase b) := by
  obtain ⟨before, after, hl⟩ := List.append_of_mem hb
  have hnodup := h.nodup
  rw [hl] at hnodup
  have hbbefore : b ∉ head :: before := by
    simp only [List.nodup_cons, List.mem_append, List.mem_cons, List.nodup_append] at hnodup
    simp only [List.mem_cons, not_or]
    exact ⟨fun hhead => hnodup.1 (Or.inr (Or.inl hhead.symm)),
      fun hmem => hnodup.2.2.2 b hmem b (Or.inl rfl) rfl⟩
  have hbafter : b ∉ after ++ [head] := by
    simp only [List.nodup_cons, List.mem_append, List.mem_cons, List.nodup_append] at hnodup
    simp only [List.mem_append, List.mem_singleton, not_or]
    exact ⟨hnodup.2.2.1.1, fun hhead => hnodup.1 (Or.inr (Or.inl hhead.symm))⟩
  have herase : l.erase b = before ++ after := by
    rw [hl, List.erase_append_right _ (fun hmem => hbbefore (List.mem_cons_of_mem head hmem)),
      List.erase_cons_head]
  -- the neighbours of the node
  obtain ⟨n, rest, hrest⟩ : ∃ n rest, after ++ [head] = n :: rest :=
    List.exists_cons_of_ne_nil (by simp)
  obtain ⟨front, p, hfront⟩ : ∃ front p, head :: before = front ++ [p] :=
    ⟨_, _, (List.dropLast_append_getLast (List.cons_ne_nil head before)).symm⟩
  have hchain := h.chain
  have hold : head :: (l ++ [head]) = front ++ p :: b :: n :: rest := by
    rw [hl, List.append_assoc, List.cons_append, hrest, ← List.cons_append, hfront,
      List.append_assoc]
    rfl
  have hnew : head :: (before ++ after ++ [head]) = front ++ p :: n :: rest := by
    rw [List.append_assoc, hrest, ← List.cons_append, hfront, List.append_assoc]
    rfl
  rw [hold, List.isChain_append_cons_cons, List.isChain_cons_cons] at hchain
  obtain ⟨hleft, hpb, hbn, hright⟩ := hchain
  rw [hfront] at hbbefore
  rw [hrest] at hbafter
  have hpbne : p ≠ b := fun hp => hbbefore (by simp [hp])
  have hnbne : n ≠ b := fun hn => hbafter (by simp [hn])
  have hlinks : r.unlink b =
      { next := Function.update r.next p n, prev := Function.update r.prev n p } := by
    simp only [Links.unlink, hbn.1, hpb.2, Function.update_of_ne (Ne.symm hnbne)]
  -- no other pointer changes: only `p` pointed to `b`, and only `b` to `n`
  have hkeep : ∀ m : List α, b ∉ m → m.IsChain r.Joined → m.IsChain (r.unlink b).Joined := by
    intro m hm hchain
    apply hchain.imp_of_mem_imp
    intro x y hx hy hxy
    have hxp : x ≠ p := by
      intro hxp
      rw [hxp] at hxy
      exact hm (hpb.1 ▸ hxy.1 ▸ hy)
    have hyn : y ≠ n := by
      intro hyn
      rw [hyn] at hxy
      exact hm (hbn.2 ▸ hxy.2 ▸ hx)
    rw [hlinks]
    exact ⟨(Function.update_of_ne hxp _ _).trans hxy.1, (Function.update_of_ne hyn _ _).trans hxy.2⟩
  constructor
  · exact h.nodup.sublist ((List.erase_sublist).cons_cons head)
  · rw [herase, hnew, List.isChain_append_cons_cons]
    refine ⟨hkeep _ hbbefore hleft, ?_, hkeep _ hbafter hright⟩
    rw [hlinks]
    exact ⟨Function.update_self _ _ _, Function.update_self _ _ _⟩

end LinkedCircle

end
