import Remudero.Claim.Anchor
import Remudero.Lib.Calendar
import Remudero.Lib.Lines
import Remudero.Lib.NumberText

/-! # The messages a holder signs its claim with

`mintAnchor` and `renew` of `lib/dispatch-claim.ts` sign a commit with the process that makes it and
the time.  What is decoded from such a message later is that time: an anchor that decodes was minted
at it (`mintedAt_claimAnchorMessage`), and the newest `renewed` line of a renewal is no older
(`renewedAt_claimRenewalMessage`).  Hence the last sign of life of a claim is never before the
commit at its tip was made (`madeAt_le_lastSignOfLife`). -/

namespace Remudero.Claim

open Remudero.Lib Remudero.Lib.Number

/-- A process as it signs its commits: a host name is a word. -/
structure ClaimProcess where
  pid : ℕ
  host : Text
  host_solid : solid host = true
  host_ne : host ≠ []

/-- The process and the time `ms`, as a renewal is signed. -/
def claimRenewer (p : ClaimProcess) (ms : ℤ) : Text :=
  Nat.toDigits 10 p.pid ++ '@' :: (p.host ++ ' ' :: toISOString ms)

/-- The message of a claim minted at `ms`. -/
def claimAnchorMessage (p : ClaimProcess) (ms : ℤ) : Text :=
  "rmd-dispatch claim ".toList ++ claimRenewer p ms

/-- The commit `message` was made at `ms`, by a mint or by a renewal. -/
def MadeAt (dateParse : Text → Option ℤ) (message : Text) (ms : ℤ) : Prop :=
  ∃ p : ClaimProcess, message = claimAnchorMessage p ms ∨
    ∃ anchor, claimRenewalMessage dateParse anchor (claimRenewer p ms) = some message

variable {dateParse : Text → Option ℤ}

/-! ### Characters of a stamp -/

theorem not_jsSpace_toISOString {ms : ℤ} {c : Char} (h : c ∈ toISOString ms) : Text.jsSpace c = false := by
  obtain h | h := isDigit_or_mem_of_mem_toISOString h
  · exact jsSpace_of_isDigit h
  · have hall : ['-', '+', 'T', ':', '.', 'Z'].all (fun d => !Text.jsSpace d) = true := by decide
    simpa using List.all_eq_true.mp hall c h

theorem toISOString_ne_nil (ms : ℤ) : toISOString ms ≠ [] := by
  simp [toISOString]

theorem not_jsSpace_host (p : ClaimProcess) {c : Char} (h : c ∈ p.host) : Text.jsSpace c = false := by
  simpa using List.all_eq_true.mp p.host_solid c h

/-- A stamp stands on one line. -/
theorem not_lineTerminator_claimRenewer {p : ClaimProcess} {ms : ℤ} {c : Char} (h : c ∈ claimRenewer p ms) :
    Text.lineTerminator c = false := by
  simp only [claimRenewer, List.mem_append, List.mem_cons] at h
  obtain h | rfl | h | rfl | h := h
  · exact Text.no_terminator_of_no_space (fun d hd => jsSpace_of_isDigit (isDigit_toDigits _ d hd)) c h
  · rfl
  · exact Text.no_terminator_of_no_space (fun d hd => not_jsSpace_host p hd) c h
  · rfl
  · exact Text.no_terminator_of_no_space (fun d hd => not_jsSpace_toISOString hd) c h

theorem parseStamp_claimRenewer (p : ClaimProcess) (ms : ℤ) :
    parseStamp (claimRenewer p ms) = some (Nat.toDigits 10 p.pid, p.host, toISOString ms) := by
  have hat : ¬ Char.isDigit '@' = true := by decide
  have hiso : solid (toISOString ms) = true :=
    List.all_eq_true.mpr fun c hc => by simp [not_jsSpace_toISOString hc]
  have hpid : Nat.toDigits 10 p.pid ≠ [] := Nat.toDigits_ne_nil
  have htake := Text.takeWhile_word_append p.host (fun c hc => not_jsSpace_host p hc) (toISOString ms)
  have hdrop := Text.dropWhile_word_append p.host (fun c hc => not_jsSpace_host p hc) (toISOString ms)
  have hne := toISOString_ne_nil ms
  unfold parseStamp claimRenewer
  rw [List.takeWhile_append_of_pos (isDigit_toDigits _), List.dropWhile_append_of_pos (isDigit_toDigits _),
    List.takeWhile_cons_of_neg hat, List.dropWhile_cons_of_neg hat]
  generalize toISOString ms = iso at hiso htake hdrop hne ⊢
  simp only [htake, hdrop]
  simp [hpid, p.host_ne, hne, hiso]

/-! ### Decoding what was signed -/

theorem stampedLines_of_line {head : Text} (p : ClaimProcess) (ms : ℤ)
    (hhead : head.all (fun c => !Text.lineTerminator c) = true) :
    stampedLines head (head ++ claimRenewer p ms) = [(Nat.toDigits 10 p.pid, p.host, toISOString ms)] := by
  have hline : Text.splitBy Text.lineTerminator (head ++ claimRenewer p ms) = [head ++ claimRenewer p ms] := by
    refine Text.splitBy_of_not_sep fun c hc => ?_
    obtain hc | hc := List.mem_append.mp hc
    · exact Text.no_terminator_of_all hhead c hc
    · exact not_lineTerminator_claimRenewer hc
  have hcut : head.isPrefixOf? (head ++ claimRenewer p ms) = some (claimRenewer p ms) := by
    clear hline hhead
    induction head with
    | nil => rfl
    | cons c cs ih => simp [List.isPrefixOf?]
  rw [stampedLines, hline]
  simp [hcut, parseStamp_claimRenewer]

theorem trim_claimAnchorMessage (p : ClaimProcess) (ms : ℤ) :
    Text.trim (claimAnchorMessage p ms) = claimAnchorMessage p ms := by
  have hhead : Text.trim "rmd-dispatch".toList = "rmd-dispatch".toList := by decide +kernel
  have hiso : Text.trim (toISOString ms) = toISOString ms := trim_of_not_space fun c hc => not_jsSpace_toISOString hc
  have hne := toISOString_ne_nil ms
  have hmessage : claimAnchorMessage p ms = "rmd-dispatch".toList ++
      (" claim ".toList ++ Nat.toDigits 10 p.pid ++ '@' :: (p.host ++ [' '])) ++ toISOString ms := by
    unfold claimAnchorMessage claimRenewer
    generalize toISOString ms = iso
    have hword : "rmd-dispatch claim ".toList = "rmd-dispatch".toList ++ " claim ".toList := by decide +kernel
    rw [hword]
    simp
  rw [hmessage]
  exact Text.trim_append_append _ hhead hiso (by decide +kernel) hne

theorem stampedLines_claimAnchorMessage (p : ClaimProcess) (ms : ℤ) :
    stampedLines "rmd-dispatch claim ".toList (Text.trim (claimAnchorMessage p ms)) =
      [(Nat.toDigits 10 p.pid, p.host, toISOString ms)] := by
  rw [trim_claimAnchorMessage]
  exact stampedLines_of_line p ms (by decide +kernel)

/-- An anchor that decodes was minted at the time it is signed with. -/
theorem mintedAt_claimAnchorMessage {p : ClaimProcess} {ms : ℤ} {a : ClaimAnchorIdentity}
    (h : parseClaimAnchorMessage dateParse (some (claimAnchorMessage p ms)) = some a) :
    dateParse (toISOString ms) = some a.mintedAtMs := by
  unfold parseClaimAnchorMessage at h
  rw [Option.getD_some] at h
  -- the limit is a number of 309 digits, which nothing here depends on
  generalize numberLimit = limit at h
  rw [stampedLines_claimAnchorMessage] at h
  generalize toISOString ms = iso at h ⊢
  cases hms : dateParse iso with
  | none =>
      simp only [hms] at h
      cases h
  | some ms' =>
      simp only [hms] at h
      obtain ⟨-, h⟩ := Option.ite_none_right_eq_some.mp h
      obtain rfl := Option.some.inj h
      rfl

/-- The newest line of a list of `renewed` lines is no older than any of them. -/
theorem renewedAt_foldl (lines : List (Text × Text × Text)) (newest : Option ClaimRenewal) :
    let step := fun (newest : Option ClaimRenewal) (s : Text × Text × Text) =>
      match dateParse s.2.2 with
      | none => newest
      | some ms =>
          let here : ClaimRenewal := ⟨s.1 ++ '@' :: s.2.1, ms, s.2.2⟩
          match newest with
          | none => some here
          | some n => if n.renewedAtMs < ms then some here else newest
    (∀ n, newest = some n → ∃ r, lines.foldl step newest = some r ∧ n.renewedAtMs ≤ r.renewedAtMs) ∧
      ∀ s ∈ lines, ∀ ms, dateParse s.2.2 = some ms → ∃ r, lines.foldl step newest = some r ∧ ms ≤ r.renewedAtMs := by
  intro step
  induction lines generalizing newest with
  | nil => exact ⟨fun n hn => ⟨n, hn, le_rfl⟩, fun s hs => by cases hs⟩
  | cons s lines ih =>
      have hkeep : ∀ n, newest = some n → ∃ m, step newest s = some m ∧ n.renewedAtMs ≤ m.renewedAtMs := by
        rintro n rfl
        simp only [step]
        split
        · exact ⟨n, rfl, le_rfl⟩
        next ms _ =>
          split_ifs with hlt
          · exact ⟨_, rfl, hlt.le⟩
          · exact ⟨n, rfl, le_rfl⟩
      have htake : ∀ ms, dateParse s.2.2 = some ms → ∃ m, step newest s = some m ∧ ms ≤ m.renewedAtMs := by
        intro ms hms
        simp only [step, hms]
        cases newest with
        | none => exact ⟨_, rfl, le_rfl⟩
        | some n =>
            simp only
            split_ifs with hlt
            · exact ⟨_, rfl, le_rfl⟩
            · exact ⟨n, rfl, not_lt.mp hlt⟩
      obtain ⟨hfirst, hrest⟩ := ih (step newest s)
      constructor
      · intro n hn
        obtain ⟨m, hm, hle⟩ := hkeep n hn
        obtain ⟨r, hr, hmr⟩ := hfirst m hm
        exact ⟨r, hr, hle.trans hmr⟩
      · intro s' hs' ms hms
        obtain rfl | hs' := List.mem_cons.mp hs'
        · obtain ⟨m, hm, hle⟩ := htake ms hms
          obtain ⟨r, hr, hmr⟩ := hfirst m hm
          exact ⟨r, hr, hle.trans hmr⟩
        · exact hrest s' hs' ms hms

/-- The newest `renewed` line of a renewal is no older than the time it is signed with. -/
theorem renewedAt_claimRenewalMessage {anchor : Option Text} {p : ClaimProcess} {ms : ℤ} {message : Text}
    (h : claimRenewalMessage dateParse anchor (claimRenewer p ms) = some message)
    (hdate : dateParse (toISOString ms) = some ms) :
    ∃ r, parseClaimRenewal dateParse (some message) = some r ∧ ms ≤ r.renewedAtMs := by
  simp only [claimRenewalMessage] at h
  split at h
  · obtain rfl := Option.some.inj h
    refine (renewedAt_foldl (stampedLines "renewed ".toList _) none).2
      (Nat.toDigits 10 p.pid, p.host, toISOString ms) ?_ ms hdate
    have hhead : "renewed ".toList.all (fun c => !Text.lineTerminator c) = true := by decide +kernel
    have hline := stampedLines_of_line p ms hhead
    have hsep : Text.lineTerminator '\n' = true := by decide
    unfold stampedLines at hline ⊢
    rw [Option.getD_some, List.append_assoc, List.cons_append, Text.splitBy_append_cons_sep hsep,
      List.filterMap_append, hline]
    exact List.mem_append_right _ (List.mem_singleton_self _)
  · cases h

/-- The last sign of life read off a claim is not before its tip was made, nor before the newest
commit of its run branches. -/
theorem madeAt_le_lastSignOfLife {message : Text} {ms : ℤ} {a : ClaimAnchorIdentity} (branch : Option ℤ)
    (hmade : MadeAt dateParse message ms) (hdate : dateParse (toISOString ms) = some ms)
    (ha : parseClaimAnchorMessage dateParse (some message) = some a) :
    ms ≤ (claimLastSignOfLife dateParse a (some message) branch).atMs ∧
      ∀ b, branch = some b → b ≤ (claimLastSignOfLife dateParse a (some message) branch).atMs := by
  have hsigned : ms ≤ (claimLastSignOfLife dateParse a (some message) none).atMs := by
    unfold claimLastSignOfLife
    dsimp only
    obtain ⟨p, rfl | ⟨anchor, hrenew⟩⟩ := hmade
    · have hminted := mintedAt_claimAnchorMessage ha
      rw [hdate] at hminted
      obtain rfl := Option.some.inj hminted
      split
      · split_ifs with hlt
        · exact hlt.le
        · exact le_rfl
      · exact le_rfl
    · obtain ⟨r, hr, hle⟩ := renewedAt_claimRenewalMessage hrenew hdate
      rw [hr]
      dsimp only
      split_ifs with hlt
      · exact hle
      · exact hle.trans (not_lt.mp hlt)
  cases branch with
  | none => exact ⟨hsigned, fun b hb => by cases hb⟩
  | some b =>
      have hsome : claimLastSignOfLife dateParse a (some message) (some b) =
          if (claimLastSignOfLife dateParse a (some message) none).atMs < b then ⟨b, .runBranch⟩
          else claimLastSignOfLife dateParse a (some message) none := rfl
      rw [hsome]
      split_ifs with hlt
      · exact ⟨hsigned.trans hlt.le, fun b' hb => (Option.some.inj hb).ge⟩
      · refine ⟨hsigned, fun b' hb => ?_⟩
        obtain rfl := Option.some.inj hb
        exact not_lt.mp hlt

end Remudero.Claim
