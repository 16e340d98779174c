import Remudero.Lib.Text

/-! # Lines

Facts about `Text.splitBy`.  The pieces of a text are never none; when more text comes, all the pieces but
the last stand, and the last one goes on (`splitBy_append`).  `lastPiece` is what an incremental reader
carries to the next read.  Lines without a separator are the pieces of their join (`splitBy_join`).

`trim_eq_self_iff`: a text is trimmed when neither of its ends is a space. -/

namespace Remudero.Lib.Text

variable {p : Char → Bool}

theorem splitBy_ne_nil (p : Char → Bool) (t : Text) : splitBy p t ≠ [] := by
  cases t with
  | nil => exact List.cons_ne_nil _ _
  | cons c t =>
      unfold splitBy
      split_ifs
      · exact List.cons_ne_nil _ _
      · split <;> exact List.cons_ne_nil _ _

/-- The piece that more text would go on. -/
def lastPiece (p : Char → Bool) (t : Text) : Text := (splitBy p t).getLast (splitBy_ne_nil p t)

theorem getLastD_splitBy (p : Char → Bool) (t d : Text) : (splitBy p t).getLastD d = lastPiece p t := by
  unfold lastPiece
  rw [List.getLastD_eq_getLast?, List.getLast?_eq_getLast_of_ne_nil (splitBy_ne_nil p t), Option.getD_some]

theorem splitBy_eq_dropLast_append (p : Char → Bool) (t : Text) :
    splitBy p t = (splitBy p t).dropLast ++ [lastPiece p t] := (List.dropLast_append_getLast _).symm

theorem splitBy_cons_of_sep {c : Char} (h : p c = true) (t : Text) : splitBy p (c :: t) = [] :: splitBy p t := by
  rw [splitBy, if_pos h]

theorem splitBy_cons_of_not_sep {c : Char} (h : p c = false) (t : Text) :
    ∃ piece pieces, splitBy p t = piece :: pieces ∧ splitBy p (c :: t) = (c :: piece) :: pieces := by
  rw [splitBy, if_neg (by simp [h])]
  cases hsplit : splitBy p t with
  | nil => exact absurd hsplit (splitBy_ne_nil p t)
  | cons piece pieces => exact ⟨piece, pieces, rfl, rfl⟩

/-- More text goes on with the last piece. -/
theorem splitBy_append (p : Char → Bool) (a b : Text) :
    splitBy p (a ++ b) = (splitBy p a).dropLast ++ splitBy p (lastPiece p a ++ b) := by
  induction a with
  | nil => rfl
  | cons c a ih =>
      rw [List.cons_append]
      cases hc : p c with
      | true =>
          have hsplit := splitBy_cons_of_sep hc a
          have hlast : lastPiece p (c :: a) = lastPiece p a := by
            unfold lastPiece
            simp only [hsplit]
            exact List.getLast_cons (splitBy_ne_nil p a)
          rw [splitBy_cons_of_sep hc, hlast, hsplit, ih, List.dropLast_cons_of_ne_nil (splitBy_ne_nil p a)]
          rfl
      | false =>
          obtain ⟨piece, pieces, hpieces, hsplit⟩ := splitBy_cons_of_not_sep hc a
          obtain ⟨piece', pieces', hpieces', hsplit'⟩ := splitBy_cons_of_not_sep hc (a ++ b)
          rw [hsplit', hsplit]
          rw [hpieces', hpieces] at ih
          cases pieces with
          | nil =>
              have hlast : lastPiece p a = piece := by
                unfold lastPiece
                simp only [hpieces, List.getLast_singleton]
              have hlast' : lastPiece p (c :: a) = c :: piece := by
                unfold lastPiece
                simp only [hsplit, List.getLast_singleton]
              rw [hlast, List.dropLast_singleton, List.nil_append] at ih
              obtain ⟨q, qs, hq, hq'⟩ := splitBy_cons_of_not_sep hc (piece ++ b)
              rw [hlast', List.dropLast_singleton, List.nil_append, List.cons_append, hq']
              rw [← ih] at hq
              cases hq
              rfl
          | cons next pieces =>
              have hlast : lastPiece p (c :: a) = lastPiece p a := by
                unfold lastPiece
                simp only [hsplit, hpieces, List.getLast_cons (List.cons_ne_nil next pieces)]
              rw [hlast]
              rw [List.dropLast_cons_of_ne_nil (List.cons_ne_nil _ _), List.cons_append] at ih ⊢
              rw [(List.cons.inj ih).1, (List.cons.inj ih).2]

/-- Text without a separator goes in front of the first piece. -/
theorem splitBy_append_of_not_sep {a : Text} (h : ∀ c ∈ a, p c = false) (b : Text) :
    ∃ piece pieces, splitBy p b = piece :: pieces ∧ splitBy p (a ++ b) = (a ++ piece) :: pieces := by
  induction a with
  | nil =>
      cases hsplit : splitBy p b with
      | nil => exact absurd hsplit (splitBy_ne_nil p b)
      | cons piece pieces => exact ⟨piece, pieces, rfl, hsplit⟩
  | cons c a ih =>
      obtain ⟨piece, pieces, hpieces, hsplit⟩ := ih fun d hd => h d (List.mem_cons_of_mem c hd)
      obtain ⟨q, qs, hq, hq'⟩ := splitBy_cons_of_not_sep (h c List.mem_cons_self) (a ++ b)
      rw [hsplit] at hq
      cases hq
      exact ⟨piece, pieces, hpieces, hq'⟩

/-- No piece has a separator. -/
theorem not_sep_of_mem_splitBy {t piece : Text} (h : piece ∈ splitBy p t) : ∀ c ∈ piece, p c = false := by
  induction t generalizing piece with
  | nil =>
      rw [splitBy, List.mem_singleton] at h
      rw [h]
      exact fun c hc => absurd hc List.not_mem_nil
  | cons c t ih =>
      cases hc : p c with
      | true =>
          rw [splitBy_cons_of_sep hc] at h
          rcases List.mem_cons.mp h with rfl | h
          · exact fun c hc => absurd hc List.not_mem_nil
          · exact ih h
      | false =>
          obtain ⟨q, qs, hq, hq'⟩ := splitBy_cons_of_not_sep hc t
          rw [hq'] at h
          rw [hq] at ih
          rcases List.mem_cons.mp h with rfl | h
          · intro d hd
            rcases List.mem_cons.mp hd with rfl | hd
            · exact hc
            · exact ih List.mem_cons_self d hd
          · exact ih (List.mem_cons_of_mem q h)

/-- A separator ends a piece. -/
theorem splitBy_append_cons_sep {c : Char} (h : p c = true) (a b : Text) :
    splitBy p (a ++ c :: b) = splitBy p a ++ splitBy p b := by
  have hlast : ∀ d ∈ lastPiece p a, p d = false := by
    apply not_sep_of_mem_splitBy
    exact List.getLast_mem (splitBy_ne_nil p a)
  obtain ⟨piece, pieces, hpieces, hsplit⟩ := splitBy_append_of_not_sep hlast (c :: b)
  rw [splitBy_cons_of_sep h] at hpieces
  obtain ⟨rfl, rfl⟩ := List.cons.inj hpieces
  rw [splitBy_append, hsplit, List.append_nil, List.append_cons, ← splitBy_eq_dropLast_append]

theorem lastPiece_append (p : Char → Bool) (a b : Text) : lastPiece p (a ++ b) = lastPiece p (lastPiece p a ++ b) := by
  unfold lastPiece
  simp only [splitBy_append p a b]
  rw [List.getLast_append_of_ne_nil]
  rfl

theorem splitBy_of_not_sep {t : Text} (h : ∀ c ∈ t, p c = false) : splitBy p t = [t] := by
  induction t with
  | nil => rfl
  | cons c t ih =>
      obtain ⟨piece, pieces, hpieces, hsplit⟩ := splitBy_cons_of_not_sep (h c List.mem_cons_self) t
      rw [ih fun d hd => h d (List.mem_cons_of_mem c hd)] at hpieces
      cases hpieces
      exact hsplit

theorem join_cons_cons (sep a b : Text) (ts : List Text) : join sep (a :: b :: ts) = a ++ sep ++ join sep (b :: ts) := by
  simp [join]

/-- The pieces of a text, joined again. -/
theorem join_splitBy (sep : Char) (t : Text) : join [sep] (splitBy (· == sep) t) = t := by
  induction t with
  | nil => rfl
  | cons c t ih =>
      cases hc : c == sep with
      | true =>
          have hsplit : splitBy (· == sep) (c :: t) = [] :: splitBy (· == sep) t :=
            splitBy_cons_of_sep (p := (· == sep)) hc t
          obtain ⟨piece, pieces, hpieces⟩ := List.exists_cons_of_ne_nil (splitBy_ne_nil (· == sep) t)
          rw [hpieces] at ih hsplit
          rw [hsplit, join_cons_cons, ih, beq_iff_eq.mp hc]
          rfl
      | false =>
          obtain ⟨piece, pieces, hpieces, hsplit⟩ := splitBy_cons_of_not_sep (p := (· == sep)) hc t
          rw [hpieces] at ih
          rw [hsplit]
          cases pieces with
          | nil =>
              rw [← ih]
              simp [join]
          | cons next pieces =>
              rw [join_cons_cons] at ih ⊢
              rw [← ih]
              simp

/-- The pieces of a join are the pieces of its texts. -/
theorem splitBy_join_eq_flatMap {sep : Char} (hsep : p sep = true) {ts : List Text} (hne : ts ≠ []) :
    splitBy p (join [sep] ts) = ts.flatMap (splitBy p) := by
  induction ts with
  | nil => exact absurd rfl hne
  | cons a ts ih =>
      cases ts with
      | nil => simp [join]
      | cons b ts =>
          rw [join_cons_cons, List.append_assoc, List.singleton_append, splitBy_append_cons_sep hsep,
            ih (List.cons_ne_nil b ts), ← List.flatMap_cons]

/-- The pieces of a join. -/
theorem splitBy_join {sep : Char} (hsep : p sep = true) {ts : List Text} (hne : ts ≠ [])
    (h : ∀ t ∈ ts, ∀ c ∈ t, p c = false) : splitBy p (join [sep] ts) = ts := by
  rw [splitBy_join_eq_flatMap hsep hne]
  clear hne
  induction ts with
  | nil => rfl
  | cons a ts ih =>
      rw [List.flatMap_cons, splitBy_of_not_sep (h a List.mem_cons_self), ih fun t ht => h t (List.mem_cons_of_mem a ht),
        List.singleton_append]

/-- The first piece is the text up to the first separator. -/
theorem splitBy_eq_cons (p : Char → Bool) (t : Text) :
    ∃ pieces, splitBy p t = t.takeWhile (fun c => !p c) :: pieces := by
  induction t with
  | nil => exact ⟨[], rfl⟩
  | cons c t ih =>
      cases hc : p c with
      | true => exact ⟨splitBy p t, by rw [splitBy_cons_of_sep hc, List.takeWhile_cons_of_neg (by simp [hc])]⟩
      | false =>
          obtain ⟨pieces, hpieces⟩ := ih
          obtain ⟨piece, rest, hsplit, hcons⟩ := splitBy_cons_of_not_sep hc t
          rw [hpieces] at hsplit
          obtain ⟨rfl, rfl⟩ := List.cons.inj hsplit
          exact ⟨pieces, by rw [hcons, List.takeWhile_cons_of_pos (by simp [hc])]⟩

/-! ### Trimmed texts -/

theorem trim_cons_space {c : Char} (h : jsSpace c = true) (t : Text) : trim (c :: t) = trim t := by
  simp [trim, h]

theorem dropWhile_eq_self_iff {t : Text} : t.dropWhile p = t ↔ ∀ c ∈ t.head?, p c = false := by
  cases t with
  | nil => simp
  | cons c t =>
      by_cases hc : p c = true
      · have hshort : (t.dropWhile p).length ≤ t.length := (List.dropWhile_sublist p).length_le
        refine iff_of_false ?_ (by simp [hc])
        intro h
        rw [List.dropWhile_cons_of_pos hc] at h
        rw [h, List.length_cons] at hshort
        omega
      · simp [hc]

theorem trim_eq_self_iff {t : Text} :
    trim t = t ↔ (∀ c ∈ t.head?, jsSpace c = false) ∧ ∀ c ∈ t.getLast?, jsSpace c = false := by
  have hlast : (∀ c ∈ t.getLast?, jsSpace c = false) ↔ t.reverse.dropWhile jsSpace = t.reverse := by
    rw [dropWhile_eq_self_iff, List.head?_reverse]
  rw [hlast, ← dropWhile_eq_self_iff]
  constructor
  · intro h
    -- nothing is lost on the left, or the result would be shorter
    have hle : t.length ≤ (t.dropWhile jsSpace).length := by
      have hshort : ((t.dropWhile jsSpace).reverse.dropWhile jsSpace).length ≤ (t.dropWhile jsSpace).reverse.length :=
        (List.dropWhile_sublist jsSpace).length_le
      rw [trim] at h
      have hlength := congrArg List.length h
      rw [List.length_reverse] at hlength hshort
      omega
    have hleft : t.dropWhile jsSpace = t := (List.dropWhile_sublist jsSpace).eq_of_length_le hle
    refine ⟨hleft, ?_⟩
    rw [trim, hleft] at h
    exact List.reverse_injective (by rw [h, List.reverse_reverse])
  · rintro ⟨hleft, hright⟩
    rw [trim, hleft, hright, List.reverse_reverse]

/-- A text between two trimmed ones. -/
theorem trim_append_append {a b : Text} (sep : Text) (ha : trim a = a) (hb : trim b = b) (hane : a ≠ []) (hbne : b ≠ []) :
    trim (a ++ sep ++ b) = a ++ sep ++ b := by
  rw [trim_eq_self_iff] at ha hb ⊢
  constructor
  · rw [List.append_assoc, List.head?_append_of_ne_nil _ hane]
    exact ha.1
  · rw [List.getLast?_append_of_ne_nil _ hbne]
    exact hb.2

theorem trim_snoc_space {c : Char} (h : jsSpace c = true) {t : Text} (ht : trim t = t) (hne : t ≠ []) :
    trim (t ++ [c]) = t := by
  obtain ⟨hhead, hlast⟩ := trim_eq_self_iff.mp ht
  have hleft : (t ++ [c]).dropWhile jsSpace = t ++ [c] := by
    rw [dropWhile_eq_self_iff, List.head?_append_of_ne_nil _ hne]
    exact hhead
  rw [← List.head?_reverse, ← dropWhile_eq_self_iff] at hlast
  rw [trim, hleft, List.reverse_append, List.reverse_singleton, List.singleton_append, List.dropWhile_cons_of_pos h, hlast,
    List.reverse_reverse]

theorem trim_eq_nil {t : Text} : trim t = [] ↔ ∀ c ∈ t, jsSpace c = true := by
  unfold trim
  rw [List.reverse_eq_nil_iff, List.dropWhile_eq_nil_iff]
  constructor
  · intro h c hc
    by_contra hsp
    have hmem : c ∈ t.dropWhile jsSpace := by
      rw [← List.takeWhile_append_dropWhile (p := jsSpace) (l := t)] at hc
      rcases List.mem_append.mp hc with hc | hc
      · exact absurd (List.mem_takeWhile_imp hc) hsp
      · exact hc
    exact hsp (h c (List.mem_reverse.mpr hmem))
  · intro h c hc
    exact h c ((List.dropWhile_sublist _).subset (List.mem_reverse.mp hc))

theorem trim_sublist_self (t : Text) : (trim t).Sublist t := by
  have hright : ((t.dropWhile jsSpace).reverse.dropWhile jsSpace).reverse.Sublist
      (t.dropWhile jsSpace).reverse.reverse := (List.dropWhile_sublist _).reverse
  rw [List.reverse_reverse] at hright
  exact hright.trans (List.dropWhile_sublist _)

theorem head_dropWhile {p : Char → Bool} {t : Text} : ∀ c ∈ (t.dropWhile p).head?, p c = false := by
  intro c hc
  cases hdrop : t.dropWhile p with
  | nil => simp [hdrop] at hc
  | cons d rest =>
      rw [hdrop] at hc
      obtain rfl := Option.some.inj hc
      have hnot := List.head_dropWhile_not p (l := t) (by rw [hdrop]; exact List.cons_ne_nil _ _)
      simpa [hdrop] using hnot

theorem trim_trim (t : Text) : trim (trim t) = trim t := by
  rw [trim_eq_self_iff]
  constructor
  · intro c hc
    have hsuffix : (t.dropWhile jsSpace).reverse.dropWhile jsSpace <:+ (t.dropWhile jsSpace).reverse :=
      List.dropWhile_suffix _
    unfold trim at hc
    rw [List.head?_reverse] at hc
    obtain ⟨front, hfront⟩ := hsuffix
    have hlast : (t.dropWhile jsSpace).reverse.getLast? = some c := by
      rw [← hfront, List.getLast?_append, hc]
      rfl
    rw [List.getLast?_reverse] at hlast
    exact head_dropWhile c hlast
  · intro c hc
    unfold trim at hc
    rw [List.getLast?_reverse] at hc
    exact head_dropWhile c hc

/-! ### Words -/

theorem no_terminator_of_no_space {t : Text} (h : ∀ c ∈ t, jsSpace c = false) :
    ∀ c ∈ t, lineTerminator c = false := by
  intro c hc
  have hspace := h c hc
  by_contra hterm
  simp only [Bool.not_eq_false, lineTerminator, Bool.or_eq_true, beq_iff_eq] at hterm
  simp only [jsSpace, Bool.or_eq_false_iff, Bool.and_eq_false_iff, decide_eq_false_iff_not, beq_eq_false_iff_ne] at hspace
  rcases hterm with ((rfl | rfl) | hterm) | hterm
  · exact absurd hspace (by decide)
  · exact absurd hspace (by decide)
  · omega
  · omega

theorem no_terminator_of_all {t : Text} (h : t.all (fun c => !lineTerminator c) = true) :
    ∀ c ∈ t, lineTerminator c = false := by
  simpa using h

theorem takeWhile_word_append (w : Text) (h : ∀ c ∈ w, jsSpace c = false) (rest : Text) :
    (w ++ ' ' :: rest).takeWhile (fun c => !jsSpace c) = w := by
  have hblank : jsSpace ' ' = true := by decide
  rw [List.takeWhile_append_of_pos (by simpa using h)]
  simp [hblank]

theorem dropWhile_word_append (w : Text) (h : ∀ c ∈ w, jsSpace c = false) (rest : Text) :
    (w ++ ' ' :: rest).dropWhile (fun c => !jsSpace c) = ' ' :: rest := by
  have hblank : jsSpace ' ' = true := by decide
  rw [List.dropWhile_append_of_pos (by simpa using h)]
  simp [hblank]

end Remudero.Lib.Text
