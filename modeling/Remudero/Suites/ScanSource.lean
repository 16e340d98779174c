import Remudero.Lib.Text

/-! # Comments and literals of a source text

`stripComments` and `maskLiterals` of `lib/test-impact-map.ts` in their default mode, over the UTF-16 code units of a source
text.  `scanCode` walks code and `scanTemplate` the text of a template; each substitution of a template is code again, until
the brace that closes it.  Both write to one output and share the last unit of code that was no white space, which
decides whether a slash begins a regular expression.

A position of the scan is the rest of the content from there on.  `fuel` bounds the calls.  `ScanTokens.lean` shows
that the length of the content and one is enough and what the scan writes. -/

namespace Remudero.Suites

open Remudero.Lib

abbrev Units := List ℕ

/-- `/\s/` on one code unit -/
def spaceUnit (c : ℕ) : Bool := Text.jsSpace (Char.ofNat c)

/-- `text.replace(/[^\n]/g, " ")` -/
def blanked (text : Units) : Units := text.map fun c => if c = '\n'.toNat then c else ' '.toNat

/-- `REGEX_PRECEDERS` -/
def regexPreceders : Units := "(,=:[!&|?\x7b\x7d;+-*%<>~^".toList.map Char.toNat

/-- `last` is none where the source has the empty string. -/
def regexMayFollow (last : Option ℕ) : Bool :=
  match last with
  | none => true
  | some c => regexPreceders.contains c

/-! ### The ends of literals and comments -/

/-- The rest of a string after its opening quote, up to the closing one or the end of the line, and what follows. -/
def takeString (quote : ℕ) : Units → Units × Units
  | [] => ([], [])
  | c :: cs =>
      if c = quote then ([c], cs)
      else if c = '\\'.toNat then
        match cs with
        | [] => ([c], [])
        | d :: ds => let (text, rest) := takeString quote ds; (c :: d :: text, rest)
      else if c = '\n'.toNat then ([c], cs)
      else let (text, rest) := takeString quote cs; (c :: text, rest)

/-- The rest of a regular expression after its opening slash; a slash in a class does not close it. -/
def takeRegex (inClass : Bool) : Units → Units × Units
  | [] => ([], [])
  | c :: cs =>
      if c = '\n'.toNat then ([c], cs)
      else if c = '\\'.toNat then
        match cs with
        | [] => ([c], [])
        | d :: ds => let (text, rest) := takeRegex inClass ds; (c :: d :: text, rest)
      else if c = '['.toNat then let (text, rest) := takeRegex true cs; (c :: text, rest)
      else if c = ']'.toNat then let (text, rest) := takeRegex false cs; (c :: text, rest)
      else if c = '/'.toNat ∧ inClass = false then ([c], cs)
      else let (text, rest) := takeRegex inClass cs; (c :: text, rest)

/-- The rest of a block comment after its opening, up to the first `*/`. -/
def takeBlock : Units → Units × Units
  | [] => ([], [])
  | c :: cs =>
      if c = '*'.toNat ∧ cs.head? = some '/'.toNat then (c :: cs.take 1, cs.drop 1)
      else let (text, rest) := takeBlock cs; (c :: text, rest)

/-! ### What is written -/

section Written

variable (mask keepLines : Bool)

def literal (text : Units) : Units :=
  if mask ∧ 1 < text.length then text.take 1 ++ blanked ((text.drop 1).dropLast) ++ text.drop (text.length - 1) else text

def blank (text : Units) : Units := if mask then blanked text else text

/-- What stands for a block comment. -/
def commentBlank (text : Units) : Units :=
  let breaks := text.filter (· = '\n'.toNat)
  if keepLines ∧ breaks ≠ [] then breaks else [' '.toNat]

/-! ### The scan -/

/-- The output, the last unit of code and the rest of the content. -/
structure Scan where
  out : Units
  last : Option ℕ
  rest : Units

mutual

/-- The content from behind the opening backtick on; `text` is the text that is not yet written. -/
def scanTemplate : ℕ → Units → Option ℕ → Units → Units → Scan
  | 0, out, last, _, content => ⟨out, last, content⟩
  | fuel + 1, out, last, text, content =>
      match content with
      | [] => ⟨out ++ blank mask text, last, []⟩
      | d :: rest =>
          if d = '\\'.toNat then scanTemplate fuel out last (text ++ content.take 2) (content.drop 2)
          else if d = '`'.toNat then ⟨out ++ blank mask text ++ ['`'.toNat], last, rest⟩
          else if d = '$'.toNat ∧ rest.head? = some '{'.toNat then
            let s := scanCode fuel true 0 (out ++ blank mask text ++ ['$'.toNat, '{'.toNat]) (some '{'.toNat) (rest.drop 1)
            scanTemplate fuel (if s.rest ≠ [] then s.out ++ ['}'.toNat] else s.out) s.last [] (s.rest.drop 1)
          else scanTemplate fuel out last (text ++ [d]) rest

/-- Code; with `untilBrace` up to the brace that closes the substitution, which stays in the rest. -/
def scanCode : ℕ → Bool → ℕ → Units → Option ℕ → Units → Scan
  | 0, _, _, out, last, content => ⟨out, last, content⟩
  | fuel + 1, untilBrace, depth, out, last, content =>
      match content with
      | [] => ⟨out, last, []⟩
      | c :: rest =>
          if c = '/'.toNat ∧ rest.head? = some '/'.toNat then
            scanCode fuel untilBrace depth out last (rest.dropWhile (· ≠ '\n'.toNat))
          else if c = '/'.toNat ∧ rest.head? = some '*'.toNat then
            let (text, after) := takeBlock (rest.drop 1)
            scanCode fuel untilBrace depth (out ++ commentBlank keepLines (c :: rest.take 1 ++ text)) last after
          else if c = '`'.toNat then
            let s := scanTemplate fuel (out ++ ['`'.toNat]) last [] rest
            scanCode fuel untilBrace depth s.out (some '`'.toNat) s.rest
          else if c = '"'.toNat ∨ c = '\''.toNat then
            let (text, after) := takeString c rest
            scanCode fuel untilBrace depth (out ++ literal mask (c :: text)) (some c) after
          else if c = '/'.toNat ∧ regexMayFollow last then
            let (text, after) := takeRegex false rest
            scanCode fuel untilBrace depth (out ++ literal mask (c :: text)) (some '/'.toNat) after
          else if untilBrace ∧ c = '}'.toNat ∧ depth = 0 then ⟨out, last, content⟩
          else
            let depth := if untilBrace ∧ c = '{'.toNat then depth + 1 else if untilBrace ∧ c = '}'.toNat then depth - 1 else depth
            scanCode fuel untilBrace depth (out ++ [c]) (if spaceUnit c then last else some c) rest

end

def scanSource (content : Units) : Units := (scanCode mask keepLines (content.length + 1) false 0 [] none content).out

end Written

def stripComments (content : Units) (keepLines : Bool) : Units := scanSource false keepLines content

def maskLiterals (content : Units) : Units := scanSource true false content

end Remudero.Suites
