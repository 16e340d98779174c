import Remudero.Suites.ScanSource

/-! # The tokens of a source text

The scan of a source text as a machine that reads one token after the other.  Its mode is code or the text of a template,
with the depths of the substitutions that are open.  The tokens cover the text, and what `scanSource` writes is what is written
for each of them (`scanSource_eq`): comments are dropped or blanked, and with a mask the inside of literals is.

A text without its comments has the same tokens without the comments (`tokens_strip`).  A token is found by its first units,
and the only unit that looks at the next one is a slash, which is never followed by a comment. -/

namespace Remudero.Suites

open Remudero.Lib

/-! ### The machine -/

inductive Token where
  | code (text : Units)
  | lineComment (text : Units)
  | blockComment (text : Units)
  /-- a string or a regular expression, with its delimiters -/
  | quoted (text : Units)
  | templateText (text : Units)
deriving DecidableEq, Repr

namespace Token

def source : Token → Units
  | code text | lineComment text | blockComment text | quoted text | templateText text => text

/-- What the scan writes for a token. -/
def render (mask keepLines : Bool) : Token → Units
  | code text => text
  | lineComment _ => []
  | blockComment text => commentBlank keepLines text
  | quoted text => literal mask text
  | templateText text => blank mask text

end Token

/-- The depths are those of the open substitutions, the innermost first. -/
inductive Mode where
  | code (depths : List ℕ) (last : Option ℕ)
  | template (depths : List ℕ)
deriving DecidableEq, Repr

/-- A unit of code that begins no literal and no comment. -/
def plainMode (c : ℕ) (last : Option ℕ) : List ℕ → Mode
  | [] => .code [] (if spaceUnit c then last else some c)
  | depth :: depths =>
      if c = '}'.toNat ∧ depth = 0 then .template depths
      else
        let depth := if c = '{'.toNat then depth + 1 else if c = '}'.toNat then depth - 1 else depth
        .code (depth :: depths) (if spaceUnit c then last else some c)

def lexCode (depths : List ℕ) (last : Option ℕ) (c : ℕ) (rest : Units) : Token × Mode × Units :=
  if c = '/'.toNat ∧ rest.head? = some '/'.toNat then
    (.lineComment (c :: rest.takeWhile (· ≠ '\n'.toNat)), .code depths last, rest.dropWhile (· ≠ '\n'.toNat))
  else if c = '/'.toNat ∧ rest.head? = some '*'.toNat then
    (.blockComment (c :: rest.take 1 ++ (takeBlock (rest.drop 1)).1), .code depths last, (takeBlock (rest.drop 1)).2)
  else if c = '`'.toNat then (.code [c], .template depths, rest)
  else if c = '"'.toNat ∨ c = '\''.toNat then
    (.quoted (c :: (takeString c rest).1), .code depths (some c), (takeString c rest).2)
  else if c = '/'.toNat ∧ regexMayFollow last then
    (.quoted (c :: (takeRegex false rest).1), .code depths (some c), (takeRegex false rest).2)
  else (.code [c], plainMode c last depths, rest)

def lexTemplate (depths : List ℕ) (c : ℕ) (rest : Units) : Token × Mode × Units :=
  if c = '\\'.toNat then (.templateText (c :: rest.take 1), .template depths, rest.drop 1)
  else if c = '`'.toNat then (.code [c], .code depths (some c), rest)
  else if c = '$'.toNat ∧ rest.head? = some '{'.toNat then
    (.code (c :: rest.take 1), .code (0 :: depths) (some '{'.toNat), rest.drop 1)
  else (.templateText [c], .template depths, rest)

/-- The first token of `c :: rest`, the mode after it, and what follows. -/
def lex : Mode → ℕ → Units → Token × Mode × Units
  | .code depths last => lexCode depths last
  | .template depths => lexTemplate depths

/-- What one step can be. -/
inductive Lexed : Mode → ℕ → Units → Token → Mode → Units → Prop
  | lineComment {ds l rest} (hnext : rest.head? = some '/'.toNat) :
      Lexed (.code ds l) '/'.toNat rest (.lineComment ('/'.toNat :: rest.takeWhile (· ≠ '\n'.toNat))) (.code ds l)
        (rest.dropWhile (· ≠ '\n'.toNat))
  | blockComment {ds l rest} (hnext : rest.head? = some '*'.toNat) :
      Lexed (.code ds l) '/'.toNat rest (.blockComment ('/'.toNat :: rest.take 1 ++ (takeBlock (rest.drop 1)).1)) (.code ds l)
        (takeBlock (rest.drop 1)).2
  | openTemplate {ds l rest} : Lexed (.code ds l) '`'.toNat rest (.code ['`'.toNat]) (.template ds) rest
  | string {ds l c rest} (hquote : c = '"'.toNat ∨ c = '\''.toNat) :
      Lexed (.code ds l) c rest (.quoted (c :: (takeString c rest).1)) (.code ds (some c)) (takeString c rest).2
  | regex {ds l rest} (hslash : rest.head? ≠ some '/'.toNat) (hstar : rest.head? ≠ some '*'.toNat)
      (hlast : regexMayFollow l = true) :
      Lexed (.code ds l) '/'.toNat rest (.quoted ('/'.toNat :: (takeRegex false rest).1)) (.code ds (some '/'.toNat))
        (takeRegex false rest).2
  | plain {ds l c rest} (htick : c ≠ '`'.toNat) (hquote : c ≠ '"'.toNat ∧ c ≠ '\''.toNat)
      (hslash : c = '/'.toNat →
        rest.head? ≠ some '/'.toNat ∧ rest.head? ≠ some '*'.toNat ∧ regexMayFollow l = false) :
      Lexed (.code ds l) c rest (.code [c]) (plainMode c l ds) rest
  | escape {ds rest} :
      Lexed (.template ds) '\\'.toNat rest (.templateText ('\\'.toNat :: rest.take 1)) (.template ds) (rest.drop 1)
  | closeTemplate {ds rest} :
      Lexed (.template ds) '`'.toNat rest (.code ['`'.toNat]) (.code ds (some '`'.toNat)) rest
  | substitution {ds rest} (hnext : rest.head? = some '{'.toNat) :
      Lexed (.template ds) '$'.toNat rest (.code ('$'.toNat :: rest.take 1)) (.code (0 :: ds) (some '{'.toNat)) (rest.drop 1)
  | text {ds c rest} (hescape : c ≠ '\\'.toNat) (htick : c ≠ '`'.toNat)
      (hdollar : c = '$'.toNat → rest.head? ≠ some '{'.toNat) :
      Lexed (.template ds) c rest (.templateText [c]) (.template ds) rest

theorem lexed_lex (mode : Mode) (c : ℕ) (rest : Units) :
    Lexed mode c rest (lex mode c rest).1 (lex mode c rest).2.1 (lex mode c rest).2.2 := by
  cases mode with
  | code ds l =>
      change Lexed _ _ _ (lexCode ds l c rest).1 (lexCode ds l c rest).2.1 (lexCode ds l c rest).2.2
      unfold lexCode
      split_ifs with hline hblock htick hquote hregex
      · obtain ⟨rfl, hnext⟩ := hline
        exact .lineComment hnext
      · obtain ⟨rfl, hnext⟩ := hblock
        exact .blockComment hnext
      · subst htick
        exact .openTemplate
      · exact .string hquote
      · obtain ⟨rfl, hlast⟩ := hregex
        exact .regex (fun h => hline ⟨rfl, h⟩) (fun h => hblock ⟨rfl, h⟩) hlast
      · refine .plain htick (not_or.mp hquote) fun hc => ?_
        exact ⟨fun h => hline ⟨hc, h⟩, fun h => hblock ⟨hc, h⟩, by simpa [hc] using hregex⟩
  | template ds =>
      change Lexed _ _ _ (lexTemplate ds c rest).1 (lexTemplate ds c rest).2.1 (lexTemplate ds c rest).2.2
      unfold lexTemplate
      split_ifs with hescape htick hopen
      · subst hescape
        exact .escape
      · subst htick
        exact .closeTemplate
      · obtain ⟨rfl, hnext⟩ := hopen
        exact .substitution hnext
      · exact .text hescape htick fun hc h => hopen ⟨hc, h⟩

/-- The step is determined by the mode and the text. -/
theorem Lexed.lex_eq {mode mode' : Mode} {c : ℕ} {rest rest' : Units} {token : Token}
    (h : Lexed mode c rest token mode' rest') : lex mode c rest = (token, mode', rest') := by
  cases h with
  | lineComment hnext => exact if_pos ⟨rfl, hnext⟩
  | blockComment hnext =>
      change lexCode _ _ _ _ = _
      rw [lexCode, if_neg (by simp [hnext]), if_pos ⟨rfl, hnext⟩]
  | openTemplate => rfl
  | string hquote =>
      change lexCode _ _ _ _ = _
      have hslash : ¬c = '/'.toNat := by rcases hquote with rfl | rfl <;> decide
      have htick : ¬c = '`'.toNat := by rcases hquote with rfl | rfl <;> decide
      rw [lexCode, if_neg (fun h => hslash h.1), if_neg (fun h => hslash h.1), if_neg htick, if_pos hquote]
  | regex hslash hstar hlast =>
      change lexCode _ _ _ _ = _
      rw [lexCode, if_neg (fun h => hslash h.2), if_neg (fun h => hstar h.2), if_neg (by decide), if_neg (by decide),
        if_pos ⟨rfl, hlast⟩]
  | plain htick hquote hslash =>
      change lexCode _ _ _ _ = _
      rw [lexCode, if_neg (fun h => (hslash h.1).1 h.2), if_neg (fun h => (hslash h.1).2.1 h.2), if_neg htick,
        if_neg (not_or.mpr hquote), if_neg]
      rintro ⟨hc, hlast⟩
      rw [(hslash hc).2.2] at hlast
      cases hlast
  | escape => rfl
  | closeTemplate => rfl
  | substitution hnext =>
      change lexTemplate _ _ _ = _
      rw [lexTemplate, if_neg (by decide), if_neg (by decide), if_pos ⟨rfl, hnext⟩]
  | text hescape htick hdollar =>
      change lexTemplate _ _ _ = _
      rw [lexTemplate, if_neg hescape, if_neg htick, if_neg fun h => hdollar h.1 h.2]

/-! ### The tokens cover the text -/

theorem takeString_append (quote : ℕ) (cs : Units) : (takeString quote cs).1 ++ (takeString quote cs).2 = cs := by
  fun_induction takeString quote cs <;> simp_all

theorem takeRegex_append (inClass : Bool) (cs : Units) : (takeRegex inClass cs).1 ++ (takeRegex inClass cs).2 = cs := by
  fun_induction takeRegex inClass cs <;> simp_all

theorem takeBlock_append (cs : Units) : (takeBlock cs).1 ++ (takeBlock cs).2 = cs := by
  fun_induction takeBlock cs with
  | case1 => rfl
  | case2 c cs h =>
      rw [List.cons_append, List.take_append_drop]
  | case3 c cs h text rest heq ih =>
      rw [heq] at ih
      rw [List.cons_append, ih]

/-- The first token and what follows make the text. -/
theorem Lexed.append {mode mode' : Mode} {c : ℕ} {rest rest' : Units} {token : Token}
    (h : Lexed mode c rest token mode' rest') : token.source ++ rest' = c :: rest := by
  cases h with
  | lineComment hnext => simp [Token.source]
  | blockComment hnext =>
      rw [Token.source, List.append_assoc, takeBlock_append, List.cons_append, List.take_append_drop]
  | string hquote => rw [Token.source, List.cons_append, takeString_append]
  | regex hslash hstar hlast => rw [Token.source, List.cons_append, takeRegex_append]
  | escape => rw [Token.source, List.cons_append, List.take_append_drop]
  | substitution hnext => rw [Token.source, List.cons_append, List.take_append_drop]
  | openTemplate => rfl
  | plain htick hquote hslash => rfl
  | closeTemplate => rfl
  | text hescape htick hdollar => rfl

theorem Lexed.source {mode mode' : Mode} {c : ℕ} {rest rest' : Units} {token : Token}
    (h : Lexed mode c rest token mode' rest') : ∃ more, token.source = c :: more := by
  cases h <;> exact ⟨_, rfl⟩

theorem lex_length (mode : Mode) (c : ℕ) (rest : Units) : (lex mode c rest).2.2.length ≤ rest.length := by
  have hlexed := lexed_lex mode c rest
  obtain ⟨more, hmore⟩ := hlexed.source
  have hlength := congrArg List.length hlexed.append
  rw [List.length_append, hmore, List.length_cons, List.length_cons] at hlength
  omega

/-- The tokens of a text. -/
def tokens (mode : Mode) (content : Units) : List Token :=
  match content with
  | [] => []
  | c :: rest => (lex mode c rest).1 :: tokens (lex mode c rest).2.1 (lex mode c rest).2.2
termination_by content.length
decreasing_by exact Nat.lt_succ_of_le (lex_length mode c rest)

theorem tokens_nil (mode : Mode) : tokens mode [] = [] := by rw [tokens]

theorem Lexed.tokens_cons {mode mode' : Mode} {c : ℕ} {rest rest' : Units} {token : Token}
    (h : Lexed mode c rest token mode' rest') : tokens mode (c :: rest) = token :: tokens mode' rest' := by
  rw [tokens, h.lex_eq]

/-- Texts are read token by token. -/
theorem token_induction {motive : Mode → Units → Prop} (nil : ∀ mode, motive mode [])
    (step : ∀ mode c rest token mode' rest', Lexed mode c rest token mode' rest' → rest'.length ≤ rest.length →
      motive mode' rest' → motive mode (c :: rest)) (mode : Mode) (content : Units) : motive mode content := by
  induction hlength : content.length using Nat.strongRecOn generalizing mode content with
  | ind n ih =>
      cases content with
      | nil => exact nil mode
      | cons c rest =>
          have hle := lex_length mode c rest
          rw [List.length_cons] at hlength
          exact step mode c rest _ _ _ (lexed_lex mode c rest) hle (ih _ (by omega) _ _ rfl)

theorem tokens_source (mode : Mode) (content : Units) : (tokens mode content).flatMap Token.source = content := by
  induction mode, content using token_induction with
  | nil mode => rw [tokens_nil]; rfl
  | step mode c rest token mode' rest' h hle ih => rw [h.tokens_cons, List.flatMap_cons, ih, h.append]

/-! ### The scan writes the tokens -/

section Refinement

variable (mask keepLines : Bool)

/-- What is written for a text. -/
def rendered (mode : Mode) (content : Units) : Units := (tokens mode content).flatMap (Token.render mask keepLines)

theorem rendered_nil (mode : Mode) : rendered mask keepLines mode [] = [] := by
  rw [rendered, tokens_nil]
  rfl

theorem Lexed.rendered_cons {mode mode' : Mode} {c : ℕ} {rest rest' : Units} {token : Token}
    (h : Lexed mode c rest token mode' rest') :
    rendered mask keepLines mode (c :: rest) = token.render mask keepLines ++ rendered mask keepLines mode' rest' := by
  rw [rendered, h.tokens_cons, List.flatMap_cons]
  rfl

/-- What is written for the rest of a substitution's content: its closing brace and the template from there on. -/
def resumed : List ℕ → Units → Units
  | _ :: depths, _ :: rest => '}'.toNat :: rendered mask keepLines (.template depths) rest
  | _, _ => []

/-- `scanTemplate` has written the template up to its end, where code goes on. -/
structure WroteTemplate (depths : List ℕ) (out text content : Units) (s : Scan) : Prop where
  length_le : s.rest.length ≤ content.length
  out_eq : s.out ++ rendered mask keepLines (.code depths (some '`'.toNat)) s.rest =
    out ++ blank mask text ++ rendered mask keepLines (.template depths) content

/-- `scanCode` has written the code up to the end of the innermost substitution. -/
structure WroteCode (depths : List ℕ) (out : Units) (last : Option ℕ) (content : Units) (s : Scan) : Prop where
  length_le : s.rest.length ≤ content.length
  out_eq : s.out ++ resumed mask keepLines depths s.rest = out ++ rendered mask keepLines (.code depths last) content

/-- With `fuel` both scans get to their ends. -/
structure Suffices (fuel : ℕ) : Prop where
  template : ∀ (depths : List ℕ) (out : Units) (last : Option ℕ) (text content : Units), content.length < fuel →
    WroteTemplate mask keepLines depths out text content (scanTemplate mask keepLines fuel out last text content)
  code : ∀ (depths : List ℕ) (out : Units) (last : Option ℕ) (content : Units), content.length < fuel →
    WroteCode mask keepLines depths out last content
      (scanCode mask keepLines fuel (!depths.isEmpty) (depths.headD 0) out last content)

theorem blank_append (s t : Units) : blank mask (s ++ t) = blank mask s ++ blank mask t := by
  unfold blank
  split
  · exact List.map_append
  · rfl

theorem resumed_nil (depths : List ℕ) : resumed mask keepLines depths [] = [] := by cases depths <;> rfl

variable {mask keepLines}

theorem Suffices.template_succ {fuel : ℕ} (h : Suffices mask keepLines fuel) (depths : List ℕ) (out : Units) (last : Option ℕ)
    (text content : Units) (hfuel : content.length < fuel + 1) :
    WroteTemplate mask keepLines depths out text content (scanTemplate mask keepLines (fuel + 1) out last text content) := by
  cases content with
  | nil =>
      rw [scanTemplate]
      exact ⟨le_refl _, by simp [rendered_nil]⟩
  | cons d rest =>
      rw [List.length_cons] at hfuel
      rw [scanTemplate]
      split_ifs with hescape htick hopen
      · subst hescape
        have hwrote := h.template depths out last (text ++ ('\\'.toNat :: rest).take 2) (('\\'.toNat :: rest).drop 2)
          (by simp; omega)
        refine ⟨hwrote.length_le.trans (by simp; omega), ?_⟩
        rw [hwrote.out_eq, blank_append, (Lexed.escape).rendered_cons]
        simp [Token.render]
      · subst htick
        refine ⟨by simp, ?_⟩
        rw [(Lexed.closeTemplate).rendered_cons]
        simp [Token.render]
      · obtain ⟨rfl, hnext⟩ := hopen
        have hcode := h.code (0 :: depths) (out ++ blank mask text ++ ['$'.toNat, '{'.toNat]) (some '{'.toNat) (rest.drop 1)
          (by rw [List.length_drop]; omega)
        change WroteCode mask keepLines _ _ _ _ (scanCode mask keepLines fuel true 0 _ _ _) at hcode
        dsimp only
        generalize scanCode mask keepLines fuel true 0 (out ++ blank mask text ++ ['$'.toNat, '{'.toNat]) (some '{'.toNat)
          (rest.drop 1) = s at hcode ⊢
        have hshort := hcode.length_le
        rw [List.length_drop] at hshort
        have hwrote := h.template depths (if s.rest ≠ [] then s.out ++ ['}'.toNat] else s.out) s.last [] (s.rest.drop 1)
          (by rw [List.length_drop]; omega)
        refine ⟨hwrote.length_le.trans (by rw [List.length_drop, List.length_cons]; omega), ?_⟩
        have hnext' : rest.take 1 = ['{'.toNat] := by
          cases rest with
          | nil => cases hnext
          | cons e rest => rw [Option.some.inj hnext]; rfl
        have hblank : blank mask [] = [] := by unfold blank; split <;> rfl
        have hbrace : (if s.rest ≠ [] then s.out ++ ['}'.toNat] else s.out) ++ blank mask [] ++
            rendered mask keepLines (.template depths) (s.rest.drop 1) = s.out ++ resumed mask keepLines (0 :: depths) s.rest := by
          cases hrest : s.rest with
          | nil => simp [hblank, rendered_nil, resumed]
          | cons b more => simp [hblank, resumed]
        rw [hwrote.out_eq, hbrace, hcode.out_eq, (Lexed.substitution hnext).rendered_cons, hnext']
        simp [Token.render]
      · have hwrote := h.template depths out last (text ++ [d]) rest (by omega)
        refine ⟨hwrote.length_le.trans (by simp), ?_⟩
        rw [hwrote.out_eq, blank_append, (Lexed.text hescape htick fun h h' => hopen ⟨h, h'⟩).rendered_cons]
        simp [Token.render]

/-- Code that no brace of depth zero closes. -/
theorem plainMode_code {c : ℕ} {last : Option ℕ} {depths : List ℕ}
    (h : ¬((!depths.isEmpty) = true ∧ c = '}'.toNat ∧ depths.headD 0 = 0)) :
    ∃ depths', plainMode c last depths = .code depths' (if spaceUnit c then last else some c) ∧
      (!depths'.isEmpty) = (!depths.isEmpty) ∧
      depths'.headD 0 = (if (!depths.isEmpty) = true ∧ c = '{'.toNat then depths.headD 0 + 1
        else if (!depths.isEmpty) = true ∧ c = '}'.toNat then depths.headD 0 - 1 else depths.headD 0) ∧
      ∀ rest, resumed mask keepLines depths' rest = resumed mask keepLines depths rest := by
  cases depths with
  | nil => exact ⟨[], rfl, rfl, rfl, fun _ => rfl⟩
  | cons d ds =>
      have hopen : ¬(c = '}'.toNat ∧ d = 0) := fun h' => h ⟨rfl, h'⟩
      refine ⟨(if c = '{'.toNat then d + 1 else if c = '}'.toNat then d - 1 else d) :: ds, ?_, rfl, ?_, fun rest => ?_⟩
      · rw [plainMode, if_neg hopen]
      · simp
      · cases rest <;> rfl

/-- A token is written, and the rest is scanned from there on. -/
theorem WroteCode.of_lexed {depths depths' : List ℕ} {out : Units} {last last' : Option ℕ} {c : ℕ} {rest rest' : Units}
    {token : Token} {s : Scan} (hlexed : Lexed (.code depths last) c rest token (.code depths' last') rest')
    (hresumed : ∀ rest, resumed mask keepLines depths' rest = resumed mask keepLines depths rest)
    (hwrote : WroteCode mask keepLines depths' (out ++ token.render mask keepLines) last' rest' s) :
    WroteCode mask keepLines depths out last (c :: rest) s := by
  have hle := lex_length (.code depths last) c rest
  rw [hlexed.lex_eq] at hle
  refine ⟨hwrote.length_le.trans (hle.trans (by simp)), ?_⟩
  rw [← hresumed, hwrote.out_eq, hlexed.rendered_cons, List.append_assoc]

theorem Suffices.code_succ {fuel : ℕ} (h : Suffices mask keepLines fuel) (depths : List ℕ) (out : Units) (last : Option ℕ)
    (content : Units) (hfuel : content.length < fuel + 1) :
    WroteCode mask keepLines depths out last content
      (scanCode mask keepLines (fuel + 1) (!depths.isEmpty) (depths.headD 0) out last content) := by
  cases content with
  | nil =>
      rw [scanCode]
      exact ⟨le_refl _, by simp [rendered_nil, resumed_nil]⟩
  | cons c rest =>
      rw [List.length_cons] at hfuel
      have hshort : ∀ {token mode' rest'}, Lexed (.code depths last) c rest token mode' rest' → rest'.length < fuel := by
        intro token mode' rest' hlexed
        have hle := lex_length (.code depths last) c rest
        rw [hlexed.lex_eq] at hle
        dsimp only at hle
        omega
      rw [scanCode]
      split
      next hline =>
        obtain ⟨rfl, hnext⟩ := hline
        have hlexed : Lexed (.code depths last) '/'.toNat rest _ _ _ := .lineComment hnext
        refine .of_lexed hlexed (fun _ => rfl) ?_
        rw [Token.render, List.append_nil]
        exact h.code depths out last _ (hshort hlexed)
      next hline =>
      split
      next hblock =>
        obtain ⟨rfl, hnext⟩ := hblock
        have hlexed : Lexed (.code depths last) '/'.toNat rest _ _ _ := .blockComment hnext
        exact .of_lexed hlexed (fun _ => rfl) (h.code depths _ last _ (hshort hlexed))
      next hblock =>
      split
      next htick =>
        subst htick
        have hlexed : Lexed (.code depths last) '`'.toNat rest _ _ _ := .openTemplate
        have htemplate := h.template depths (out ++ ['`'.toNat]) last [] rest (hshort hlexed)
        dsimp only
        generalize scanTemplate mask keepLines fuel (out ++ ['`'.toNat]) last [] rest = s at htemplate ⊢
        have hle := htemplate.length_le
        have hcode := h.code depths s.out (some '`'.toNat) s.rest (by omega)
        refine ⟨hcode.length_le.trans (hle.trans (by simp)), ?_⟩
        have hblank : blank mask [] = [] := by unfold blank; split <;> rfl
        rw [hcode.out_eq, htemplate.out_eq, hlexed.rendered_cons, hblank]
        simp [Token.render]
      next htick =>
      split
      next hquote =>
        have hlexed : Lexed (.code depths last) c rest _ _ _ := .string hquote
        exact .of_lexed hlexed (fun _ => rfl) (h.code depths _ _ _ (hshort hlexed))
      next hquote =>
      split
      next hregex =>
        obtain ⟨rfl, hlast⟩ := hregex
        have hlexed : Lexed (.code depths last) '/'.toNat rest _ _ _ :=
          .regex (fun h => hline ⟨rfl, h⟩) (fun h => hblock ⟨rfl, h⟩) hlast
        exact .of_lexed hlexed (fun _ => rfl) (h.code depths _ _ _ (hshort hlexed))
      next hregex =>
      have hlexed : Lexed (.code depths last) c rest (.code [c]) (plainMode c last depths) rest := by
        refine .plain htick (not_or.mp hquote) fun hc => ?_
        exact ⟨fun h => hline ⟨hc, h⟩, fun h => hblock ⟨hc, h⟩, by simpa [hc] using hregex⟩
      split
      next hclose =>
        refine ⟨le_refl _, ?_⟩
        obtain ⟨hopen, rfl, hzero⟩ := hclose
        cases depths with
        | nil => cases hopen
        | cons d ds =>
            obtain rfl : d = 0 := hzero
            rw [hlexed.rendered_cons]
            rfl
      next hclose =>
        obtain ⟨depths', hmode, hnested, hdepth, hresumed⟩ := @plainMode_code mask keepLines c last depths hclose
        rw [hmode] at hlexed
        refine .of_lexed hlexed hresumed ?_
        have hcode := h.code depths' (out ++ [c]) (if spaceUnit c then last else some c) rest (hshort hlexed)
        rw [hnested, hdepth] at hcode
        exact hcode

theorem suffices_all (fuel : ℕ) : Suffices mask keepLines fuel := by
  induction fuel with
  | zero => exact ⟨fun _ _ _ _ _ h => absurd h (Nat.not_lt_zero _), fun _ _ _ _ h => absurd h (Nat.not_lt_zero _)⟩
  | succ fuel ih => exact ⟨ih.template_succ, ih.code_succ⟩

end Refinement

/-- The scan of a source text writes what is written for its tokens. -/
theorem scanSource_eq (mask keepLines : Bool) (content : Units) :
    scanSource mask keepLines content = rendered mask keepLines (.code [] none) content := by
  have hwrote := (@suffices_all mask keepLines (content.length + 1)).code [] [] none content (Nat.lt_succ_self _)
  have hout := hwrote.out_eq
  rw [List.nil_append] at hout
  rw [← hout]
  exact (List.append_nil _).symm

/-! ### A text without its comments -/

theorem literal_false (text : Units) : literal false text = text := if_neg (by simp)

/-- A literal that has ended goes on ending there, whatever follows. -/
theorem takeString_take (quote : ℕ) (cs more : Units) (h : (takeString quote cs).2 = [] → more = []) :
    takeString quote ((takeString quote cs).1 ++ more) = ((takeString quote cs).1, more) := by
  fun_induction takeString quote cs with
  | case1 => rw [h rfl]; rfl
  | case2 cs =>
      dsimp only [List.singleton_append]
      rw [takeString.eq_def]
      exact if_pos rfl
  | case3 hquote =>
      rw [h rfl]
      dsimp only [List.singleton_append]
      rw [takeString.eq_def]
      simp only [if_neg hquote, if_true]
  | case4 d ds text rest heq hquote ih =>
      rw [heq] at ih
      dsimp only [List.cons_append]
      rw [takeString.eq_def]
      simp only [if_neg hquote, if_true, ih h]
  | case5 cs hquote hescape =>
      dsimp only [List.singleton_append]
      rw [takeString.eq_def]
      simp only [if_neg hquote, if_neg hescape, if_true]
  | case6 c cs hquote hescape hline text rest heq ih =>
      rw [heq] at ih
      dsimp only [List.cons_append]
      rw [takeString.eq_def]
      simp only [if_neg hquote, if_neg hescape, if_neg hline, ih h]

theorem takeRegex_take (inClass : Bool) (cs more : Units) (h : (takeRegex inClass cs).2 = [] → more = []) :
    takeRegex inClass ((takeRegex inClass cs).1 ++ more) = ((takeRegex inClass cs).1, more) := by
  fun_induction takeRegex inClass cs with
  | case1 => rw [h rfl]; rfl
  | case2 inClass cs =>
      dsimp only [List.singleton_append]
      rw [takeRegex.eq_def]
      simp only [if_true]
  | case3 inClass hline =>
      rw [h rfl]
      dsimp only [List.singleton_append]
      rw [takeRegex.eq_def]
      simp only [if_neg hline, if_true]
  | case4 inClass d ds text rest heq hline ih =>
      rw [heq] at ih
      dsimp only [List.cons_append]
      rw [takeRegex.eq_def]
      simp only [if_neg hline, if_true, ih h]
  | case5 inClass cs text rest heq hline hescape ih =>
      rw [heq] at ih
      dsimp only [List.cons_append]
      rw [takeRegex.eq_def]
      simp only [if_neg hline, if_neg hescape, if_true, ih h]
  | case6 inClass cs text rest heq hline hescape hopen ih =>
      rw [heq] at ih
      dsimp only [List.cons_append]
      rw [takeRegex.eq_def]
      simp only [if_neg hline, if_neg hescape, if_neg hopen, if_true, ih h]
  | case7 inClass c cs hline hescape hopen hclose hslash =>
      dsimp only [List.singleton_append]
      rw [takeRegex.eq_def]
      simp only [if_neg hline, if_neg hescape, if_neg hopen, if_neg hclose, if_pos hslash]
  | case8 inClass c cs hline hescape hopen hclose hslash text rest heq ih =>
      rw [heq] at ih
      dsimp only [List.cons_append]
      rw [takeRegex.eq_def]
      simp only [if_neg hline, if_neg hescape, if_neg hopen, if_neg hclose, if_neg hslash, ih h]

/-- A regular expression begins with the unit after its slash. -/
theorem head_takeRegex (rest more : Units) (h : (takeRegex false rest).2 = [] → more = []) :
    ((takeRegex false rest).1 ++ more).head? = rest.head? := by
  cases rest with
  | nil => rw [h rfl]; rfl
  | cons c cs =>
      have hne : (takeRegex false (c :: cs)).1 ≠ [] := by
        rw [takeRegex.eq_def]
        dsimp only
        split_ifs
        · exact List.cons_ne_nil _ _
        · split <;> exact List.cons_ne_nil _ _
        · exact List.cons_ne_nil _ _
        · exact List.cons_ne_nil _ _
        · exact List.cons_ne_nil _ _
        · exact List.cons_ne_nil _ _
      have happend := congrArg List.head? (takeRegex_append false (c :: cs))
      rw [List.head?_append_of_ne_nil _ hne] at happend ⊢
      exact happend

/-! The text of a template and code that is no comment begin alike once the comments are gone. -/

theorem Lexed.render_source {mode mode' : Mode} {c : ℕ} {rest rest' : Units} {token : Token} (keepLines : Bool)
    (h : Lexed mode c rest token mode' rest')
    (hcomment : ∀ depths last, mode = .code depths last → c = '/'.toNat →
      rest.head? ≠ some '/'.toNat ∧ rest.head? ≠ some '*'.toNat) : token.render false keepLines = token.source := by
  cases h with
  | lineComment hnext => exact absurd hnext (hcomment _ _ rfl rfl).1
  | blockComment hnext => exact absurd hnext (hcomment _ _ rfl rfl).2
  | string hquote => exact literal_false _
  | regex hslash hstar hlast => exact literal_false _
  | openTemplate => rfl
  | plain htick hquote hslash => rfl
  | escape => rfl
  | closeTemplate => rfl
  | substitution hnext => rfl
  | text hescape htick hdollar => rfl

theorem head_rendered (keepLines : Bool) {mode : Mode} {content : Units}
    (h : ∀ depths last, mode = .code depths last → content.head? ≠ some '/'.toNat) :
    (rendered false keepLines mode content).head? = content.head? := by
  cases content with
  | nil => rw [rendered_nil]
  | cons c rest =>
      have hlexed := lexed_lex mode c rest
      have hrender := hlexed.render_source keepLines fun depths last hmode hc =>
        absurd (by rw [hc]; rfl) (h depths last hmode)
      obtain ⟨more, hsource⟩ := hlexed.source
      rw [hlexed.rendered_cons, hrender, hsource]
      rfl

/-- What is left of a token. -/
def Token.clean (keepLines : Bool) : Token → List Token
  | lineComment _ => []
  | blockComment text => (commentBlank keepLines text).map fun c => code [c]
  | token => [token]

theorem mem_commentBlank {keepLines : Bool} {text : Units} {c : ℕ} (h : c ∈ commentBlank keepLines text) :
    c = ' '.toNat ∨ c = '\n'.toNat := by
  unfold commentBlank at h
  dsimp only at h
  split at h
  · exact .inr (of_decide_eq_true (List.mem_filter.mp h).2)
  · exact .inl (List.mem_singleton.mp h)

/-- A blank is code that changes nothing. -/
theorem lexed_blank {c : ℕ} (h : c = ' '.toNat ∨ c = '\n'.toNat) (depths : List ℕ) (last : Option ℕ) (rest : Units) :
    Lexed (.code depths last) c rest (.code [c]) (.code depths last) rest := by
  have hmode : plainMode c last depths = .code depths last := by
    have hspace : spaceUnit c = true := by rcases h with rfl | rfl <;> decide
    have hopen : c ≠ '{'.toNat := by rcases h with rfl | rfl <;> decide
    have hclose : c ≠ '}'.toNat := by rcases h with rfl | rfl <;> decide
    cases depths with
    | nil => rw [plainMode, if_pos hspace]
    | cons d ds => simp only [plainMode, hspace, hopen, hclose, false_and, if_false, if_true]
  have hlexed : Lexed (.code depths last) c rest (.code [c]) (plainMode c last depths) rest := by
    refine .plain ?_ ?_ fun hc => ?_
    · rcases h with rfl | rfl <;> decide
    · rcases h with rfl | rfl <;> decide
    · rcases h with rfl | rfl <;> exact absurd hc (by decide)
  rwa [hmode] at hlexed

theorem tokens_blanks (depths : List ℕ) (last : Option ℕ) {blanks : Units} (h : ∀ c ∈ blanks, c = ' '.toNat ∨ c = '\n'.toNat)
    (rest : Units) :
    tokens (.code depths last) (blanks ++ rest) = (blanks.map fun c => Token.code [c]) ++ tokens (.code depths last) rest := by
  induction blanks with
  | nil => rfl
  | cons c blanks ih =>
      rw [List.cons_append, (lexed_blank (h c List.mem_cons_self) depths last _).tokens_cons,
        ih fun d hd => h d (List.mem_cons_of_mem c hd)]
      rfl

/-- The tokens of a text without its comments. -/
theorem tokens_rendered (keepLines : Bool) (mode : Mode) (content : Units) :
    tokens mode (rendered false keepLines mode content) = (tokens mode content).flatMap (Token.clean keepLines) := by
  induction mode, content using token_induction with
  | nil mode => rw [rendered_nil, tokens_nil]; rfl
  | step mode c rest token mode' rest' h hle ih =>
      rw [h.rendered_cons, h.tokens_cons, List.flatMap_cons, ← ih]
      have hempty : rest' = [] → rendered false keepLines mode' rest' = [] := by
        rintro rfl
        exact rendered_nil false keepLines mode'
      cases h with
      | lineComment hnext => rfl
      | blockComment hnext => exact tokens_blanks _ _ (fun d hd => mem_commentBlank hd) _
      | openTemplate => exact (Lexed.openTemplate).tokens_cons
      | string hquote =>
          rw [Token.render, literal_false, List.cons_append, (Lexed.string hquote).tokens_cons,
            takeString_take _ _ _ hempty]
          rfl
      | regex hslash hstar hlast =>
          have hhead := head_takeRegex rest _ hempty
          rw [← hhead] at hslash hstar
          rw [Token.render, literal_false, List.cons_append, (Lexed.regex hslash hstar hlast).tokens_cons,
            takeRegex_take _ _ _ hempty]
          rfl
      | plain htick hquote hslash =>
          refine (Lexed.plain htick hquote fun hc => ?_).tokens_cons
          obtain ⟨hline, hblock, hlast⟩ := hslash hc
          have hhead : ∀ mode, (rendered false keepLines mode rest).head? = rest.head? := fun mode =>
            head_rendered keepLines fun _ _ _ => hline
          exact ⟨fun h => hline ((hhead _).symm.trans h), fun h => hblock ((hhead _).symm.trans h), hlast⟩
      | escape =>
          cases rest with
          | nil =>
              rw [hempty rfl]
              exact (Lexed.escape).tokens_cons
          | cons d rest => exact (Lexed.escape).tokens_cons
      | closeTemplate => exact (Lexed.closeTemplate).tokens_cons
      | substitution hnext =>
          cases rest with
          | nil => cases hnext
          | cons d rest =>
              have hopen : ∀ more : Units, (d :: more).head? = some '{'.toNat := fun _ => hnext
              exact (Lexed.substitution (hopen _)).tokens_cons
      | text hescape htick hdollar =>
          refine (Lexed.text hescape htick fun hc h => hdollar hc ?_).tokens_cons
          have hhead : ∀ ds, (rendered false keepLines (.template ds) rest).head? = rest.head? := fun ds =>
            head_rendered keepLines fun _ _ hmode => nomatch hmode
          exact (hhead _).symm.trans h

/-- No token is a comment. -/
def Token.plainText : Token → Bool
  | lineComment _ | blockComment _ => false
  | _ => true

theorem Token.plainText_of_mem_clean {keepLines : Bool} {token t : Token} (h : t ∈ token.clean keepLines) :
    t.plainText = true := by
  cases token with
  | lineComment text => cases h
  | blockComment text =>
      obtain ⟨c, -, rfl⟩ := List.mem_map.mp h
      rfl
  | code text => rw [List.mem_singleton.mp h]; rfl
  | quoted text => rw [List.mem_singleton.mp h]; rfl
  | templateText text => rw [List.mem_singleton.mp h]; rfl

theorem Token.render_of_plainText {keepLines : Bool} {token : Token} (h : token.plainText = true) :
    token.render false keepLines = token.source := by
  cases token with
  | lineComment text => cases h
  | blockComment text => cases h
  | code text => rfl
  | quoted text => exact literal_false text
  | templateText text => rfl

theorem plainText_strip {keepLines : Bool} {content : Units} :
    ∀ token ∈ tokens (.code [] none) (stripComments content keepLines), token.plainText = true := by
  intro token htoken
  rw [stripComments, scanSource_eq, tokens_rendered] at htoken
  obtain ⟨t, -, ht⟩ := List.mem_flatMap.mp htoken
  exact Token.plainText_of_mem_clean ht

/-- Stripping what has been stripped changes nothing. -/
theorem stripComments_stripComments (content : Units) (keepLines keepLines' : Bool) :
    stripComments (stripComments content keepLines) keepLines' = stripComments content keepLines := by
  have hplain := @plainText_strip keepLines content
  generalize stripComments content keepLines = stripped at hplain
  rw [stripComments, scanSource_eq, rendered]
  refine Eq.trans ?_ (tokens_source (.code [] none) stripped)
  exact List.flatMap_congr fun token htoken => Token.render_of_plainText (hplain token htoken)

/-! ### Lines -/

theorem count_commentBlank (text : Units) : (commentBlank true text).count '\n'.toNat = text.count '\n'.toNat := by
  have hcount : (text.filter (· = '\n'.toNat)).count '\n'.toNat = text.count '\n'.toNat := List.count_filter (by simp)
  unfold commentBlank
  dsimp only
  split
  next => exact hcount
  next hnone =>
    have hbreaks : text.filter (· = '\n'.toNat) = [] := by
      by_contra hne
      exact hnone ⟨rfl, hne⟩
    rw [← hcount, hbreaks]
    rfl

theorem count_rendered (mode : Mode) (content : Units) :
    (rendered false true mode content).count '\n'.toNat = content.count '\n'.toNat := by
  induction mode, content using token_induction with
  | nil mode => rw [rendered_nil]
  | step mode c rest token mode' rest' h hle ih =>
      rw [h.rendered_cons, List.count_append, ih, ← h.append, List.count_append]
      congr 1
      cases h with
      | lineComment hnext =>
          refine (List.count_eq_zero.mpr ?_).symm
          intro hmem
          obtain hslash | hmem := List.mem_cons.mp hmem
          · exact absurd hslash (by decide)
          · exact absurd (List.mem_takeWhile_imp hmem) (by decide)
      | blockComment hnext => exact count_commentBlank _
      | string hquote => rw [Token.render, literal_false]; rfl
      | regex hslash hstar hlast => rw [Token.render, literal_false]; rfl
      | openTemplate => rfl
      | plain htick hquote hslash => rfl
      | escape => rfl
      | closeTemplate => rfl
      | substitution hnext => rfl
      | text hescape htick hdollar => rfl

/-! ### The mask -/

/-- The positions in a token that a mask blanks. -/
def Token.Inside : Token → ℕ → Prop
  | quoted text, j => 0 < j ∧ j + 1 < text.length
  | templateText text, j => j < text.length
  | _, _ => False

/-- Position `i` is inside a literal: between the delimiters of a string or regular expression, or in the text of a
template. -/
def InsideLiteral (ts : List Token) (i : ℕ) : Prop :=
  ∃ before token after j, ts = before ++ token :: after ∧ token.Inside j ∧ i = (before.flatMap Token.source).length + j

/-- A unit and what a mask makes of it at a position that may be blanked. -/
def MaskedUnit (inside : Prop) (c m : ℕ) : Prop := m = c ∨ m = ' '.toNat ∧ c ≠ '\n'.toNat ∧ inside

theorem getElem?_blanked (text : Units) (j : ℕ) :
    (blanked text)[j]? = (text[j]?).map fun c => if c = '\n'.toNat then c else ' '.toNat := List.getElem?_map

theorem masked_blanked {text : Units} {j c : ℕ} (h : text[j]? = some c) (inside : Prop) (hinside : inside) :
    ∃ m, (blanked text)[j]? = some m ∧ MaskedUnit inside c m := by
  rw [getElem?_blanked, h]
  by_cases hc : c = '\n'.toNat
  · exact ⟨c, by rw [Option.map_some, if_pos hc], .inl rfl⟩
  · exact ⟨' '.toNat, by rw [Option.map_some, if_neg hc], .inr ⟨rfl, hc, hinside⟩⟩

theorem length_blanked (text : Units) : (blanked text).length = text.length := List.length_map _

/-- A literal of two units or more. -/
theorem literal_true (a z : ℕ) (inner : Units) : literal true (a :: inner ++ [z]) = a :: blanked inner ++ [z] := by
  unfold literal
  rw [if_pos (by simp)]
  simp

/-- A text of two units or more. -/
theorem exists_inner {text : Units} (h : 1 < text.length) : ∃ a inner z, text = a :: inner ++ [z] := by
  obtain ⟨a, more, rfl⟩ := List.exists_cons_of_ne_nil (List.ne_nil_of_length_pos (by omega : 0 < text.length))
  have hne : more ≠ [] := by
    rintro rfl
    exact absurd h (by simp)
  exact ⟨a, more.dropLast, more.getLast hne, by rw [List.cons_append, List.dropLast_append_getLast hne]⟩

theorem masked_literal (text : Units) :
    (literal true text).length = text.length ∧ ∀ j c, text[j]? = some c →
      ∃ m, (literal true text)[j]? = some m ∧ MaskedUnit (0 < j ∧ j + 1 < text.length) c m := by
  by_cases hlong : 1 < text.length
  · obtain ⟨a, inner, z, rfl⟩ := exists_inner hlong
    rw [literal_true]
    refine ⟨by simp [length_blanked], fun j c hj => ?_⟩
    cases j with
    | zero => exact ⟨c, hj, .inl rfl⟩
    | succ j =>
        rw [List.cons_append, List.getElem?_cons_succ] at hj ⊢
        by_cases hinner : j < inner.length
        · rw [List.getElem?_append_left hinner] at hj
          rw [List.getElem?_append_left (by rwa [length_blanked])]
          exact masked_blanked hj _ ⟨by omega, by simp; omega⟩
        · rw [List.getElem?_append_right (by omega)] at hj
          rw [List.getElem?_append_right (by rw [length_blanked]; omega), length_blanked]
          exact ⟨c, hj, .inl rfl⟩
  · have hsame : literal true text = text := if_neg fun h => hlong h.2
    rw [hsame]
    exact ⟨rfl, fun j c hj => ⟨c, hj, .inl rfl⟩⟩

theorem Token.masked {token : Token} (h : token.plainText = true) :
    (token.render true false).length = token.source.length ∧ ∀ j c, token.source[j]? = some c →
      ∃ m, (token.render true false)[j]? = some m ∧ MaskedUnit (token.Inside j) c m := by
  cases token with
  | lineComment text => cases h
  | blockComment text => cases h
  | code text => exact ⟨rfl, fun j c hj => ⟨c, hj, .inl rfl⟩⟩
  | quoted text => exact masked_literal text
  | templateText text =>
      refine ⟨length_blanked text, fun j c hj => masked_blanked hj _ ?_⟩
      exact (List.getElem?_eq_some_iff.mp hj).1

/-- The mask of a text without comments, unit by unit. -/
theorem masked_tokens (before ts : List Token) (h : ∀ token ∈ ts, token.plainText = true) :
    (ts.flatMap (Token.render true false)).length = (ts.flatMap Token.source).length ∧
      ∀ i c, (ts.flatMap Token.source)[i]? = some c →
        ∃ m, (ts.flatMap (Token.render true false))[i]? = some m ∧
          MaskedUnit (InsideLiteral (before ++ ts) ((before.flatMap Token.source).length + i)) c m := by
  induction ts generalizing before with
  | nil => exact ⟨rfl, fun i c hi => by cases hi⟩
  | cons token ts ih =>
      obtain ⟨hlength, hmasked⟩ := token.masked (h token List.mem_cons_self)
      obtain ⟨hrest, hmaskedRest⟩ := ih (before ++ [token]) fun t ht => h t (List.mem_cons_of_mem token ht)
      rw [List.flatMap_cons, List.flatMap_cons]
      refine ⟨by rw [List.length_append, List.length_append, hlength, hrest], fun i c hi => ?_⟩
      by_cases hlt : i < token.source.length
      · rw [List.getElem?_append_left hlt] at hi
        rw [List.getElem?_append_left (by rwa [hlength])]
        obtain ⟨m, hm, hunit⟩ := hmasked i c hi
        refine ⟨m, hm, hunit.imp_right fun ⟨hblank, hne, hinside⟩ => ⟨hblank, hne, ?_⟩⟩
        exact ⟨before, token, ts, i, rfl, hinside, rfl⟩
      · rw [List.getElem?_append_right (by omega)] at hi
        rw [List.getElem?_append_right (by omega), hlength]
        obtain ⟨m, hm, hunit⟩ := hmaskedRest _ c hi
        refine ⟨m, hm, hunit.imp_right fun ⟨hblank, hne, hinside⟩ => ⟨hblank, hne, ?_⟩⟩
        have hoffset : ((before ++ [token]).flatMap Token.source).length + (i - token.source.length) =
            (before.flatMap Token.source).length + i := by
          rw [List.flatMap_append, List.length_append, List.flatMap_singleton]
          omega
        rw [hoffset, List.append_assoc] at hinside
        exact hinside

/-- Positions are kept: stripping is idempotent, with `keepLines` the line feeds stay, and a mask of a stripped text blanks
units inside literals and nothing else. -/
theorem strip_and_mask (content : Units) :
    (∀ keepLines keepLines',
        stripComments (stripComments content keepLines) keepLines' = stripComments content keepLines) ∧
      (stripComments content true).count '\n'.toNat = content.count '\n'.toNat ∧
      ∀ keepLines, (maskLiterals (stripComments content keepLines)).length = (stripComments content keepLines).length ∧
        ∀ i c, (stripComments content keepLines)[i]? = some c →
          ∃ m, (maskLiterals (stripComments content keepLines))[i]? = some m ∧
            (m = '\n'.toNat ↔ c = '\n'.toNat) ∧
            (m ≠ c → m = ' '.toNat ∧ InsideLiteral (tokens (.code [] none) (stripComments content keepLines)) i) := by
  refine ⟨stripComments_stripComments content, ?_, fun keepLines => ?_⟩
  · rw [stripComments, scanSource_eq]
    exact count_rendered _ content
  · have hplain := @plainText_strip keepLines content
    generalize stripComments content keepLines = stripped at hplain
    have hmasked := masked_tokens [] (tokens (.code [] none) stripped) hplain
    rw [tokens_source] at hmasked
    rw [maskLiterals, scanSource_eq]
    refine ⟨hmasked.1, fun i c hi => ?_⟩
    obtain ⟨m, hm, hunit⟩ := hmasked.2 i c hi
    refine ⟨m, hm, ?_⟩
    obtain rfl | ⟨rfl, hne, hinside⟩ := hunit
    · exact ⟨Iff.rfl, fun h => absurd rfl h⟩
    · refine ⟨iff_of_false (by decide) hne, fun _ => ⟨rfl, ?_⟩⟩
      rw [List.flatMap_nil, List.length_nil, Nat.zero_add, List.nil_append] at hinside
      exact hinside

end Remudero.Suites
