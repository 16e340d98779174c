import Remudero.Lib.Text

/-! # Host identity

`hostIdentity` and `sameHost` of `lib/host-identity.ts`, the one host comparison behind every
recorded `pid@host`, and `looksLikeContainerId` of `lib/fs-race-safe.ts`.  Host names are ASCII,
so lower-casing is ASCII lower-casing.  An absent host is `none`. -/

namespace Remudero.Host

open Remudero.Lib

/-- Drop `suffix` from the end of `t` when it is there. -/
def dropSuffix (t suffix : Text) : Text :=
  if suffix.isSuffixOf t then t.take (t.length - suffix.length) else t

/-- Trimmed, lower-cased, one trailing `.` dropped, then a trailing `.local` dropped. -/
def hostIdentity (host : Text) : Text :=
  dropSuffix (dropSuffix (Text.lower (Text.trim host)) ['.']) ['.', 'l', 'o', 'c', 'a', 'l']

/-- Lowercase hexadecimal digit. -/
def isHex (c : Char) : Bool := c.isDigit || ('a' ≤ c && c ≤ 'f')

/-- Twelve or sixty-four lowercase hexadecimal digits, the shape of a container id. -/
def looksLikeContainerId (host : Text) : Bool :=
  (host.length == 12 || host.length == 64) && host.all isHex

/-- Do `a` and `b` name the same machine? -/
def sameHost (a b : Option Text) : Bool :=
  match a, b with
  | some a, some b =>
      let x := hostIdentity a
      let y := hostIdentity b
      if x.isEmpty || y.isEmpty then false
      else if x = y then true
      else
        let xBare := x.all (· != '.')
        let yBare := y.all (· != '.')
        if xBare == yBare then false
        else
          let bare := if xBare then x else y
          let qualified := if xBare then y else x
          if looksLikeContainerId bare then false
          else qualified.takeWhile (· != '.') == bare
  | _, _ => false

/-! ### Container ids -/

theorem isHex_bounds {c : Char} (h : isHex c = true) :
    (48 ≤ c.toNat ∧ c.toNat ≤ 57) ∨ (97 ≤ c.toNat ∧ c.toNat ≤ 102) := by
  simp only [isHex, Char.isDigit, Bool.or_eq_true, Bool.and_eq_true, decide_eq_true_eq] at h
  rcases h with ⟨h1, h2⟩ | ⟨h1, h2⟩
  · left
    exact ⟨h1, h2⟩
  · right
    exact ⟨h1, h2⟩

theorem jsSpace_of_isHex {c : Char} (h : isHex c = true) : Text.jsSpace c = false := by
  have hb := isHex_bounds h
  simp only [Text.jsSpace, Bool.or_eq_false_iff, Bool.and_eq_false_iff, decide_eq_false_iff_not, beq_eq_false_iff_ne]
  omega

theorem toLower_of_isHex {c : Char} (h : isHex c = true) : c.toLower = c := by
  have hb := isHex_bounds h
  unfold Char.toLower
  split
  next hu =>
    have h1 : 65 ≤ c.toNat := hu.1
    have h2 : c.toNat ≤ 90 := hu.2
    omega
  · rfl

theorem trim_of_isHex {t : Text} (h : ∀ c ∈ t, isHex c = true) : Text.trim t = t := by
  have key : ∀ u : Text, (∀ c ∈ u, isHex c = true) → u.dropWhile Text.jsSpace = u := by
    intro u hu
    cases u with
    | nil => rfl
    | cons c u => rw [List.dropWhile_cons_of_neg]; simp [jsSpace_of_isHex (hu c List.mem_cons_self)]
  unfold Text.trim
  rw [key t h, key t.reverse (fun c hc => h c (List.mem_reverse.mp hc)), List.reverse_reverse]

/-- A text of hexadecimal digits does not end in a suffix with a dot in it. -/
theorem dropSuffix_of_isHex {t suffix : Text} (h : ∀ c ∈ t, isHex c = true) (hdot : '.' ∈ suffix) :
    dropSuffix t suffix = t := by
  unfold dropSuffix
  rw [if_neg]
  intro hs
  have hmem := h '.' ((List.isSuffixOf_iff_suffix.mp hs).subset hdot)
  exact absurd hmem (by decide)

/-- A container id is its own identity. -/
theorem hostIdentity_of_containerId {host : Text} (h : looksLikeContainerId host = true) :
    hostIdentity host = host := by
  simp only [looksLikeContainerId, Bool.and_eq_true, List.all_eq_true] at h
  have hall : ∀ c ∈ host, isHex c = true := h.2
  have hlower : Text.lower host = host := by
    unfold Text.lower
    rw [List.map_congr_left (fun c hc => toLower_of_isHex (hall c hc)), List.map_id']
  unfold hostIdentity
  rw [trim_of_isHex hall, hlower, dropSuffix_of_isHex hall (by decide), dropSuffix_of_isHex hall (by decide)]

/-- A host is compared equal to itself unless its identity is empty. -/
theorem sameHost_self (h : Text) : sameHost (some h) (some h) = !(hostIdentity h).isEmpty := by
  simp only [sameHost]
  by_cases he : (hostIdentity h).isEmpty <;> simp [he]

end Remudero.Host
