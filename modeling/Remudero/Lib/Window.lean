import Mathlib

/-! # Duplicates within a window

A stream of elements is read under two keys: a class and a mark.  An element is admitted unless its
mark is among the last `N` marks admitted in its class.

* `RingBuffer` is the buffer programs keep for this: a list that is overwritten in place from a
  position on, beside the set of the marks in it.  `RingBuffer.Holds` relates it to the queue it stands
  for, oldest mark first (`RingBuffer.Holds.add`).
* `admitted` is the stream filtered with one queue for each class and `queues` the queues after it;
  `queues_eq` says that they are the last `N` marks of what they held and what was admitted, and
  `spaced_admitted` that a mark is never among the `N` before it.
* `scanRings_eq`: the filter with rings is the filter with queues. -/

namespace Remudero.Lib

variable {α σ κ : Type*} [DecidableEq σ] [DecidableEq κ]

/-! ### The last elements of a list -/

/-- The last `n` elements. -/
def lastN (n : ℕ) (l : List α) : List α := l.drop (l.length - n)

theorem lastN_of_length_le {n : ℕ} {l : List α} (h : l.length ≤ n) : lastN n l = l := by
  have hz : l.length - n = 0 := by omega
  rw [lastN, hz, List.drop_zero]

theorem length_lastN (n : ℕ) (l : List α) : (lastN n l).length = min n l.length := by
  rw [lastN, List.length_drop]
  omega

theorem lastN_suffix (n : ℕ) (l : List α) : lastN n l <:+ l := List.drop_suffix _ _

theorem lastN_append_of_le {n : ℕ} (l : List α) {m : List α} (h : n ≤ m.length) :
    lastN n (l ++ m) = lastN n m := by
  rw [lastN, lastN, List.length_append, List.drop_append, List.drop_of_length_le (by omega),
    List.nil_append]
  congr 1
  omega

/-- Elements before the last `n` can be dropped at any time. -/
theorem lastN_lastN_append (n : ℕ) (l m : List α) : lastN n (lastN n l ++ m) = lastN n (l ++ m) := by
  by_cases h : l.length ≤ n
  · rw [lastN_of_length_le h]
  · have hl : l = l.take (l.length - n) ++ lastN n l := (List.take_append_drop _ _).symm
    have hlen : (lastN n l).length = n := by
      rw [length_lastN]
      omega
    have hle : n ≤ (lastN n l ++ m).length := by
      rw [List.length_append]
      omega
    conv_rhs => rw [hl, List.append_assoc, lastN_append_of_le _ hle]

theorem lastN_lastN (n : ℕ) (l : List α) : lastN n (lastN n l) = lastN n l := by
  simpa using lastN_lastN_append n l []

theorem suffix_lastN_append {n : ℕ} (l : List α) {m : List α} (h : m.length ≤ n) :
    m <:+ lastN n (l ++ m) := by
  rw [lastN, List.drop_append_of_le_length (by rw [List.length_append]; omega)]
  exact List.suffix_append _ _

/-! ### Rings -/

/-- A buffer overwritten in place: `next` is the position of the oldest mark once it is full. -/
structure RingBuffer (κ : Type*) where
  order : List κ := []
  next : ℕ := 0
  seen : List κ := []

namespace RingBuffer

/-- Read a mark: whether it is in the buffer, and the buffer after it. -/
def add (limit : ℕ) (r : RingBuffer κ) (x : κ) : Bool × RingBuffer κ :=
  if x ∈ r.seen then (true, r)
  else if r.order.length < limit then
    (false, { r with order := r.order ++ [x], seen := x :: r.seen })
  else
    (false,
      { order := r.order.set r.next x
        next := (r.next + 1) % limit
        seen := match r.order[r.next]? with
          | some evicted => (x :: r.seen).filter (· ≠ evicted)
          | none => x :: r.seen })

/-- The ring holds the queue `q`, oldest mark first. -/
structure Holds (limit : ℕ) (r : RingBuffer κ) (q : List κ) : Prop where
  seen : ∀ x, x ∈ r.seen ↔ x ∈ q
  nodup : q.Nodup
  queue : q = r.order.drop r.next ++ r.order.take r.next
  length : r.order.length ≤ limit
  filling : r.order.length < limit → r.next = 0
  next : r.next < limit

omit [DecidableEq κ] in
theorem holds_empty {limit : ℕ} (h : 0 < limit) : Holds limit ({} : RingBuffer κ) [] :=
  ⟨fun _ => Iff.rfl, List.nodup_nil, rfl, Nat.zero_le _, fun _ => rfl, h⟩

variable {limit : ℕ} {r : RingBuffer κ} {q : List κ} {x : κ}

omit [DecidableEq κ] in
theorem Holds.queue_length (h : Holds limit r q) : q.length = r.order.length := by
  rw [h.queue, List.length_append, List.length_drop, List.length_take]
  have hle : r.next ≤ r.order.length := by
    by_cases hf : r.order.length < limit
    · rw [h.filling hf]
      exact Nat.zero_le _
    · have := h.next
      omega
  omega

theorem Holds.replayed (h : Holds limit r q) : (r.add limit x).1 = decide (x ∈ q) := by
  unfold add
  by_cases hx : x ∈ r.seen
  · simp [hx, (h.seen x).mp hx]
  · have hq : x ∉ q := fun hq => hx ((h.seen x).mpr hq)
    simp only [hx, if_false, hq, decide_false]
    split_ifs <;> rfl

theorem Holds.add_of_mem (h : Holds limit r q) (hx : x ∈ q) : (r.add limit x).2 = r := by
  unfold add
  rw [if_pos ((h.seen x).mpr hx)]

/-- A new mark goes to the end of the queue and the oldest one leaves a full queue. -/
theorem Holds.add (h : Holds limit r q) (hx : x ∉ q) :
    Holds limit (r.add limit x).2 (lastN limit (q ++ [x])) := by
  have hseen : x ∉ r.seen := fun hs => hx ((h.seen x).mp hs)
  have hlen := h.queue_length
  have hnodup : (q ++ [x]).Nodup := by
    rw [List.nodup_append]
    refine ⟨h.nodup, by simp, ?_⟩
    intro a ha b hb
    rw [List.mem_singleton.mp hb]
    rintro rfl
    exact hx ha
  unfold RingBuffer.add
  rw [if_neg hseen]
  split_ifs with hroom
  · -- the buffer is not full yet
    have hnext := h.filling hroom
    have hq : q = r.order := by simpa [hnext] using h.queue
    have hfit : (q ++ [x]).length ≤ limit := by
      rw [List.length_append, List.length_singleton]
      omega
    rw [lastN_of_length_le hfit]
    refine ⟨?_, hnodup, ?_, ?_, fun _ => hnext, h.next⟩
    · intro y
      rw [List.mem_cons, h.seen y, List.mem_append, List.mem_singleton, or_comm]
    · simp [hnext, hq]
    · rw [← hq]
      exact hfit
  · -- the mark at `next` is the oldest one and makes room
    have hfull : r.order.length = limit := by
      have := h.length
      omega
    have hlt : r.next < r.order.length := by
      have := h.next
      omega
    have hold : r.order.drop r.next = r.order[r.next] :: r.order.drop (r.next + 1) :=
      List.drop_eq_getElem_cons hlt
    have hq : q = r.order[r.next] :: (r.order.drop (r.next + 1) ++ r.order.take r.next) := by
      rw [h.queue, hold, List.cons_append]
    have hlast : lastN limit (q ++ [x]) =
        r.order.drop (r.next + 1) ++ r.order.take r.next ++ [x] := by
      have hone : (q ++ [x]).length - limit = 1 := by
        rw [List.length_append, List.length_singleton]
        omega
      rw [lastN, hone, hq]
      rfl
    rw [hlast]
    have hsub : (r.order.drop (r.next + 1) ++ r.order.take r.next ++ [x]).Nodup := by
      rw [← hlast]
      exact hnodup.sublist (lastN_suffix _ _).sublist
    refine ⟨?_, hsub, ?_, ?_, ?_, Nat.mod_lt _ (by omega)⟩
    · intro y
      have hy : y ∈ r.seen ↔
          y = r.order[r.next] ∨ y ∈ r.order.drop (r.next + 1) ++ r.order.take r.next := by
        rw [h.seen y, hq, List.mem_cons]
      have hxold : x ≠ r.order[r.next] := by
        rintro rfl
        exact hx (hq ▸ List.mem_cons_self)
      have hnot : r.order[r.next] ∉ r.order.drop (r.next + 1) ++ r.order.take r.next := by
        have hnd := h.nodup
        rw [hq, List.nodup_cons] at hnd
        exact hnd.1
      rw [List.getElem?_eq_getElem hlt, List.mem_append, List.mem_singleton]
      simp only [List.mem_filter, List.mem_cons, hy, decide_eq_true_eq]
      constructor
      · rintro ⟨rfl | rfl | hmem, hne⟩
        · exact .inr rfl
        · exact absurd rfl hne
        · exact .inl hmem
      · rintro (hmem | rfl)
        · refine ⟨.inr (.inr hmem), ?_⟩
          rintro rfl
          exact hnot hmem
        · exact ⟨.inl rfl, hxold⟩
    · by_cases hwrap : r.next + 1 = limit
      · have hz : (r.next + 1) % limit = 0 := by rw [hwrap, Nat.mod_self]
        have hnil : r.order.drop (r.next + 1) = [] := List.drop_of_length_le (by omega)
        simp only [hz, List.drop_zero, List.take_zero, List.append_nil, hnil, List.nil_append]
        rw [List.set_eq_take_append_cons_drop, if_pos hlt, hnil]
      · have hmod : (r.next + 1) % limit = r.next + 1 := Nat.mod_eq_of_lt (by have := h.next; omega)
        simp only [hmod]
        rw [List.drop_set_of_lt (by omega), List.take_add_one, List.append_assoc]
        congr 1
        rw [List.take_set_of_le (Nat.le_refl _), List.getElem?_set_self hlt]
        rfl
    · rw [List.length_set]
      exact h.length
    · intro hlt'
      rw [List.length_set] at hlt'
      omega

end RingBuffer

/-! ### Streams -/

section Streams

variable (limit : ℕ) (place : α → σ × κ)

/-- The marks of a class in a list. -/
def marksOf (c : σ) (l : List α) : List κ :=
  l.filterMap fun a => if (place a).1 = c then some (place a).2 else none

/-- Put the mark of an element at the end of the queue of its class. -/
def enqueue (q : σ → List κ) (a : α) : σ → List κ :=
  Function.update q (place a).1 (lastN limit (q (place a).1 ++ [(place a).2]))

/-- The elements whose mark is not in the queue of their class when they are read. -/
def admitted (q : σ → List κ) : List α → List α
  | [] => []
  | a :: l =>
      if (place a).2 ∈ q (place a).1 then admitted q l
      else a :: admitted (enqueue limit place q a) l

/-- The queues after a list is read. -/
def queues (q : σ → List κ) : List α → σ → List κ
  | [] => q
  | a :: l =>
      if (place a).2 ∈ q (place a).1 then queues q l else queues (enqueue limit place q a) l

/-- The same filter with a ring for each class. -/
def scanRings (rings : σ → RingBuffer κ) : List α → List α × (σ → RingBuffer κ)
  | [] => ([], rings)
  | a :: l =>
      let read := (rings (place a).1).add limit (place a).2
      let rest := scanRings (Function.update rings (place a).1 read.2) l
      (if read.1 then rest.1 else a :: rest.1, rest.2)

variable {limit place} {q : σ → List κ} {rings : σ → RingBuffer κ}

theorem scanRings_eq (h : ∀ c, (rings c).Holds limit (q c)) (l : List α) :
    (scanRings limit place rings l).1 = admitted limit place q l ∧
      ∀ c, ((scanRings limit place rings l).2 c).Holds limit (queues limit place q l c) := by
  induction l generalizing q rings with
  | nil => exact ⟨rfl, h⟩
  | cons a l ih =>
      have hread := (h (place a).1).replayed (x := (place a).2)
      by_cases hmem : (place a).2 ∈ q (place a).1
      · have hsame : Function.update rings (place a).1
            ((rings (place a).1).add limit (place a).2).2 = rings := by
          rw [(h (place a).1).add_of_mem hmem, Function.update_eq_self]
        have htail := ih h
        simp only [scanRings, admitted, queues, hread, hmem, decide_true, if_true, hsame]
        exact htail
      · have hnext : ∀ c, (Function.update rings (place a).1
            ((rings (place a).1).add limit (place a).2).2 c).Holds limit
              (enqueue limit place q a c) := by
          intro c
          by_cases hc : c = (place a).1
          · subst hc
            rw [Function.update_self, enqueue, Function.update_self]
            exact (h _).add hmem
          · rw [Function.update_of_ne hc, enqueue, Function.update_of_ne hc]
            exact h c
        have htail := ih hnext
        simp only [scanRings, admitted, queues, hread, hmem, decide_false, if_false,
          Bool.false_eq_true]
        exact ⟨by rw [htail.1], htail.2⟩

theorem admitted_sublist (q : σ → List κ) (l : List α) : (admitted limit place q l).Sublist l := by
  induction l generalizing q with
  | nil => exact List.nil_sublist _
  | cons a l ih =>
      unfold admitted
      split_ifs
      · exact (ih q).cons a
      · exact (ih _).cons_cons a

theorem admitted_append (q : σ → List κ) (l m : List α) :
    admitted limit place q (l ++ m) =
      admitted limit place q l ++ admitted limit place (queues limit place q l) m := by
  induction l generalizing q with
  | nil => rfl
  | cons a l ih =>
      simp only [List.cons_append, admitted, queues]
      split_ifs
      · exact ih q
      · rw [ih, List.cons_append]

theorem queues_append (q : σ → List κ) (l m : List α) :
    queues limit place q (l ++ m) = queues limit place (queues limit place q l) m := by
  induction l generalizing q with
  | nil => rfl
  | cons a l ih =>
      simp only [List.cons_append, queues]
      split_ifs
      · exact ih q
      · exact ih _

omit [DecidableEq κ] in
theorem marksOf_append (c : σ) (l m : List α) :
    marksOf place c (l ++ m) = marksOf place c l ++ marksOf place c m :=
  List.filterMap_append

omit [DecidableEq κ] in
theorem marksOf_cons (c : σ) (a : α) (l : List α) :
    marksOf place c (a :: l) =
      if (place a).1 = c then (place a).2 :: marksOf place c l else marksOf place c l := by
  unfold marksOf
  rw [List.filterMap_cons]
  split_ifs <;> rfl

/-- A queue holds the last marks of what it held and what was admitted. -/
theorem queues_eq (h : ∀ c, (q c).length ≤ limit) (l : List α) (c : σ) :
    queues limit place q l c = lastN limit (q c ++ marksOf place c (admitted limit place q l)) := by
  induction l generalizing q with
  | nil =>
      simp only [queues, admitted, marksOf, List.filterMap_nil, List.append_nil]
      rw [lastN_of_length_le (h c)]
  | cons a l ih =>
      simp only [queues, admitted]
      split_ifs with hmem
      · exact ih h
      · have hlen : ∀ c, (enqueue limit place q a c).length ≤ limit := by
          intro c
          by_cases hc : c = (place a).1
          · subst hc
            rw [enqueue, Function.update_self, length_lastN]
            exact Nat.min_le_left _ _
          · rw [enqueue, Function.update_of_ne hc]
            exact h c
        rw [ih hlen, marksOf_cons]
        split_ifs with hc
        · subst hc
          rw [enqueue, Function.update_self, lastN_lastN_append, List.append_assoc]
          rfl
        · rw [enqueue, Function.update_of_ne (Ne.symm hc)]

/-- No element is among the `n` before it. -/
def Spaced (n : ℕ) (l : List κ) : Prop := ∀ pre x post, l = pre ++ x :: post → x ∉ lastN n pre

omit [DecidableEq κ] in
theorem spaced_of_nodup {n : ℕ} {l : List κ} (h : l.Nodup) : Spaced n l := by
  intro pre x post heq hmem
  rw [heq, List.nodup_append] at h
  exact h.2.2 x ((lastN_suffix n pre).subset hmem) x List.mem_cons_self rfl

omit [DecidableEq κ] in
theorem Spaced.append_singleton {n : ℕ} {l : List κ} {x : κ} (h : Spaced n l) (hx : x ∉ lastN n l) :
    Spaced n (l ++ [x]) := by
  intro pre y post heq
  rcases List.eq_nil_or_concat post with rfl | ⟨post', z, rfl⟩
  · obtain ⟨rfl, hy⟩ := List.append_inj' heq rfl
    rw [← List.singleton_inj.mp hy]
    exact hx
  · have heq' : l ++ [x] = (pre ++ y :: post') ++ [z] := by simpa using heq
    obtain ⟨hl, -⟩ := List.append_inj' heq' rfl
    exact h pre y post' hl

omit [DecidableEq κ] in
theorem nodup_of_split {l : List κ} (h : ∀ pre x post, l = pre ++ x :: post → x ∉ pre) :
    l.Nodup := by
  induction l using List.reverseRecOn with
  | nil => exact List.nodup_nil
  | append_singleton l x ih =>
      rw [List.nodup_append]
      refine ⟨ih fun pre y post heq => h pre y (post ++ [x]) (by rw [heq]; simp), by simp, ?_⟩
      intro a ha b hb
      rw [List.mem_singleton.mp hb]
      rintro rfl
      exact h l a [] rfl ha

omit [DecidableEq κ] in
/-- `n + 1` elements in a row are distinct. -/
theorem Spaced.nodup_middle {n : ℕ} {a b c : List κ} (h : Spaced n (a ++ b ++ c))
    (hlen : b.length ≤ n + 1) : b.Nodup := by
  refine nodup_of_split ?_
  intro pre x post heq hmem
  have hpre : pre.length ≤ n := by
    rw [heq, List.length_append, List.length_cons] at hlen
    omega
  refine h (a ++ pre) x (post ++ c) (by rw [heq]; simp) ?_
  exact (suffix_lastN_append a hpre).subset hmem

omit [DecidableEq κ] in
/-- The last `n` of spaced elements are distinct. -/
theorem Spaced.nodup_lastN {n : ℕ} {a b : List κ} (h : Spaced n (a ++ b)) : (lastN n b).Nodup := by
  obtain ⟨earlier, hsplit⟩ := lastN_suffix n b
  have hlen : (lastN n b).length ≤ n + 1 := by
    rw [length_lastN]
    omega
  refine Spaced.nodup_middle (n := n) (a := a ++ earlier) (c := []) ?_ hlen
  rwa [List.append_nil, List.append_assoc, hsplit]

/-- The marks of a class, those first in the queue and those admitted, are spaced. -/
theorem spaced_admitted (c : σ) {held : List κ} (hheld : Spaced limit held)
    (hq : q c = lastN limit held) (l : List α) :
    Spaced limit (held ++ marksOf place c (admitted limit place q l)) := by
  induction l generalizing q held with
  | nil => simpa [admitted, marksOf] using hheld
  | cons a l ih =>
      unfold admitted
      split_ifs with hmem
      · exact ih hheld hq
      · rw [marksOf_cons]
        split_ifs with hc
        · subst hc
          rw [hq] at hmem
          have hnext := ih (q := enqueue limit place q a) (hheld.append_singleton hmem) (by
            rw [enqueue, Function.update_self, hq, lastN_lastN_append])
          rwa [List.append_assoc] at hnext
        · refine ih hheld ?_
          rw [enqueue, Function.update_of_ne (Ne.symm hc), hq]

/-- Older marks in the queues make no difference to a stream that has none of them. -/
theorem admitted_forget {old : σ → List κ} {q' : σ → List κ} {l : List α}
    (hq : ∀ c, q c = lastN limit (old c ++ q' c)) (hlen : ∀ c, (q' c).length ≤ limit)
    (hold : ∀ a ∈ l, (place a).2 ∉ old (place a).1) :
    admitted limit place q l = admitted limit place q' l := by
  induction l generalizing q q' with
  | nil => rfl
  | cons a l ih =>
      have htail : ∀ b ∈ l, (place b).2 ∉ old (place b).1 :=
        fun b hb => hold b (List.mem_cons_of_mem a hb)
      have hiff : (place a).2 ∈ q (place a).1 ↔ (place a).2 ∈ q' (place a).1 := by
        rw [hq]
        constructor
        · intro hmem
          rcases List.mem_append.mp ((lastN_suffix _ _).subset hmem) with ho | ho
          · exact absurd ho (hold a List.mem_cons_self)
          · exact ho
        · intro hmem
          exact (suffix_lastN_append _ (hlen _)).subset hmem
      unfold admitted
      by_cases hmem : (place a).2 ∈ q' (place a).1
      · rw [if_pos hmem, if_pos (hiff.mpr hmem)]
        exact ih hq hlen htail
      · rw [if_neg hmem, if_neg (mt hiff.mp hmem)]
        congr 1
        refine ih ?_ ?_ htail
        · intro c
          by_cases hc : c = (place a).1
          · subst hc
            rw [enqueue, enqueue, Function.update_self, Function.update_self, hq, lastN_lastN_append,
              List.append_assoc]
            by_cases hfit : (q' (place a).1 ++ [(place a).2]).length ≤ limit
            · rw [lastN_of_length_le hfit]
            · have hge : limit ≤ (lastN limit (q' (place a).1 ++ [(place a).2])).length := by
                rw [length_lastN]
                omega
              rw [lastN_append_of_le (old (place a).1) hge, lastN_lastN,
                lastN_append_of_le (old (place a).1) (by omega)]
          · rw [enqueue, enqueue, Function.update_of_ne hc, Function.update_of_ne hc]
            exact hq c
        · intro c
          by_cases hc : c = (place a).1
          · subst hc
            rw [enqueue, Function.update_self, length_lastN]
            exact Nat.min_le_left _ _
          · rw [enqueue, Function.update_of_ne hc]
            exact hlen c

/-! ### Marks near their first occurrence -/

theorem marksOf_admitted_sublist (q : σ → List κ) (c : σ) (l : List α) :
    (marksOf place c (admitted limit place q l)).Sublist (marksOf place c l) :=
  (admitted_sublist q l).filterMap _

/-- A mark that occurs is in the queue before or is admitted. -/
theorem mem_marksOf_admitted {c : σ} {m : κ} {l : List α} (h : m ∈ marksOf place c l) :
    m ∈ q c ∨ m ∈ marksOf place c (admitted limit place q l) := by
  induction l generalizing q with
  | nil => exact absurd h List.not_mem_nil
  | cons a l ih =>
      rw [marksOf_cons] at h
      unfold admitted
      by_cases hq : (place a).2 ∈ q (place a).1
      · rw [if_pos hq]
        split_ifs at h with hc
        · rcases List.mem_cons.mp h with rfl | hl
          · exact .inl (hc ▸ hq)
          · exact ih hl
        · exact ih h
      · rw [if_neg hq, marksOf_cons]
        split_ifs at h ⊢ with hc
        · rcases List.mem_cons.mp h with rfl | hl
          · exact .inr List.mem_cons_self
          · rcases ih (q := enqueue limit place q a) hl with hm | hm
            · rw [enqueue, ← hc, Function.update_self] at hm
              rcases List.mem_append.mp ((lastN_suffix _ _).subset hm) with hm | hm
              · exact .inl (hc ▸ hm)
              · rw [List.mem_singleton.mp hm]
                exact .inr List.mem_cons_self
            · exact .inr (List.mem_cons_of_mem _ hm)
        · rcases ih (q := enqueue limit place q a) h with hm | hm
          · rw [enqueue, Function.update_of_ne (Ne.symm hc)] at hm
            exact .inl hm
          · exact .inr hm

/-- Where an admitted mark was read, it was not in the queue. -/
theorem exists_split_of_mem_admitted {c : σ} {m : κ} {l : List α}
    (h : m ∈ marksOf place c (admitted limit place q l)) :
    ∃ pre a post, l = pre ++ a :: post ∧ place a = (c, m) ∧ m ∉ queues limit place q pre c := by
  induction l generalizing q with
  | nil => exact absurd h List.not_mem_nil
  | cons a l ih =>
      unfold admitted at h
      by_cases hq : (place a).2 ∈ q (place a).1
      · rw [if_pos hq] at h
        obtain ⟨pre, b, post, rfl, hb, hout⟩ := ih h
        refine ⟨a :: pre, b, post, rfl, hb, ?_⟩
        rw [queues, if_pos hq]
        exact hout
      · rw [if_neg hq, marksOf_cons] at h
        by_cases hhead : place a = (c, m)
        · refine ⟨[], a, l, rfl, hhead, ?_⟩
          rw [hhead] at hq
          exact hq
        · have htail : m ∈ marksOf place c (admitted limit place (enqueue limit place q a) l) := by
            split_ifs at h with hc
            · rcases List.mem_cons.mp h with hm | hl
              · exact absurd (Prod.ext hc hm.symm) hhead
              · exact hl
            · exact h
          obtain ⟨pre, b, post, rfl, hb, hout⟩ := ih htail
          refine ⟨a :: pre, b, post, rfl, hb, ?_⟩
          rw [queues, if_neg hq]
          exact hout

/-- The distinct marks other than `m` since `m` first occurred. -/
def othersSince (m : κ) (l : List κ) : Finset κ :=
  ((l.dropWhile (· ≠ m)).filter (· ≠ m)).toFinset

theorem sublist_dropWhile_ne {m : κ} {s l : List κ} (h : (m :: s).Sublist l) :
    (m :: s).Sublist (l.dropWhile (· ≠ m)) := by
  induction l with
  | nil => exact absurd (List.sublist_nil.mp h) (List.cons_ne_nil _ _)
  | cons x l ih =>
      by_cases hx : x = m
      · rw [List.dropWhile_cons_of_neg (by simpa using hx)]
        exact h
      · rw [List.dropWhile_cons_of_pos (by simpa using hx)]
        refine ih ?_
        cases h with
        | cons _ h => exact h
        | cons_cons _ h => exact absurd rfl hx

/-- A mark with fewer than `limit` other marks since its first occurrence is in the queue. -/
theorem mem_queues_of_near {l : List α} {c : σ} {m : κ} (hmem : m ∈ marksOf place c l)
    (hnear : (othersSince m (marksOf place c l)).card < limit) :
    m ∈ queues limit place (fun _ => []) l c := by
  have hspaced : Spaced limit ([] ++ marksOf place c (admitted limit place (fun _ => []) l)) :=
    spaced_admitted c (spaced_of_nodup List.nodup_nil) (lastN_of_length_le (Nat.zero_le _)).symm l
  rw [queues_eq (fun _ => Nat.zero_le _)]
  rw [List.nil_append] at hspaced ⊢
  have hadm : m ∈ marksOf place c (admitted limit place (fun _ => []) l) :=
    (mem_marksOf_admitted hmem).resolve_left List.not_mem_nil
  have hsub : (marksOf place c (admitted limit place (fun _ => []) l)).Sublist (marksOf place c l) :=
    marksOf_admitted_sublist _ c l
  generalize marksOf place c (admitted limit place (fun _ => []) l) = held at hspaced hadm hsub ⊢
  obtain ⟨before, after, rfl⟩ := List.append_of_mem hadm
  by_contra hout
  -- the mark was pushed out, so `limit` distinct marks were admitted after it
  have hlen : limit ≤ after.length := by
    by_contra hlt
    have hfit : (m :: after).length ≤ limit := by
      rw [List.length_cons]
      omega
    exact hout ((suffix_lastN_append before hfit).subset List.mem_cons_self)
  have hnodup : (m :: after.take limit).Nodup := by
    refine Spaced.nodup_middle (n := limit) (a := before) (c := after.drop limit) ?_ (by simp)
    have hsplit : before ++ m :: after.take limit ++ after.drop limit = before ++ m :: after := by
      simp
    rw [hsplit]
    exact hspaced
  rw [List.nodup_cons] at hnodup
  have hsince : (m :: after).Sublist ((marksOf place c l).dropWhile (· ≠ m)) :=
    sublist_dropWhile_ne ((List.sublist_append_right _ _).trans hsub)
  have hsubset : (after.take limit).toFinset ⊆ othersSince m (marksOf place c l) := by
    intro x hx
    rw [List.mem_toFinset] at hx
    have hne : x ≠ m := by
      rintro rfl
      exact hnodup.1 hx
    rw [othersSince, List.mem_toFinset, List.mem_filter]
    exact ⟨hsince.subset (List.mem_cons_of_mem _ (List.take_subset _ _ hx)), by simpa using hne⟩
  have hcard := Finset.card_le_card hsubset
  rw [List.toFinset_card_of_nodup hnodup.2, List.length_take] at hcard
  omega

/-- A stream with at most `limit` distinct marks of a class has no more admitted. -/
theorem length_marksOf_admitted_le {c : σ} {l : List α} {held : List κ} (hheld : Spaced limit held)
    (hq : q c = lastN limit held) (h : (marksOf place c l).toFinset.card ≤ limit) :
    (marksOf place c (admitted limit place q l)).length ≤ limit := by
  by_contra hlong
  have hspaced : Spaced limit (held ++ marksOf place c (admitted limit place q l)) :=
    spaced_admitted c hheld hq l
  have hsub : (marksOf place c (admitted limit place q l)).Sublist (marksOf place c l) :=
    marksOf_admitted_sublist q c l
  generalize marksOf place c (admitted limit place q l) = marks at hspaced hsub hlong
  have hnodup : (marks.take (limit + 1)).Nodup := by
    refine Spaced.nodup_middle (n := limit) (a := held) (c := marks.drop (limit + 1)) ?_ (by simp)
    rwa [List.append_assoc, List.take_append_drop]
  have hsubset : (marks.take (limit + 1)).toFinset ⊆ (marksOf place c l).toFinset := by
    intro x hx
    rw [List.mem_toFinset] at hx ⊢
    exact hsub.subset (List.take_subset _ _ hx)
  have hcard := Finset.card_le_card hsubset
  rw [List.toFinset_card_of_nodup hnodup, List.length_take] at hcard
  omega

end Streams

end Remudero.Lib
