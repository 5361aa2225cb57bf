/-
  The write seam of the Go file server (`fileserver/cf_fileop.go`). It remembers which of three
  worlds it is in (`SeamState`) and probes seaf-server again when the answer has expired
  (`cfSeam`). A process is a sequence of calls in the order of the mutex; the world is what the
  latest probe says (`Process.run_tracks`).
-/
import Mathlib.Data.Rat.Defs
import Mathlib.Tactic.Common

namespace CloudFile

namespace Fileserver

/-! ## The model -/

/-- A value that `rpcclient.Call` returns. -/
inductive Reply where
  | float64 (v : ℚ)
  | int64 (v : ℤ)
  /-- `json.Number`, with what its `Int64` returns -/
  | number (int64 : Except String ℤ)
  | text (raw : String)
  /-- any other dynamic type, nil included -/
  | other

/-- A call: the value, or the text of the error. -/
abbrev Called := Except String Reply

/-- `cfVerdict` -/
structure Verdict where
  allowed : Bool
  code : ℤ
  message : String

/-- The code of a locked file. -/
def cfErrFileLocked : ℤ := 600

/-- The code of another version. -/
def cfErrVersionMismatch : ℤ := 601

/-- The status of a refusal. -/
def cfHTTPStatus (code : ℤ) : ℕ :=
  if code = cfErrFileLocked then 423
  else if code = cfErrVersionMismatch then 409
  else 403

/-- `appError`; no error where the provider refused. -/
structure AppError where
  error : Option String
  message : String
  code : ℕ
deriving DecidableEq

/-- What is known of the seam. -/
inductive SeamState where
  | unknown
  | unsupported
  | inactive
  | active
deriving DecidableEq

/-- When a missing seam is probed again. -/
def cfSeamReprobeSeconds : ℤ := 300

/-- `cfSeamState` and `cfSeamProbeAt`. -/
structure Seam where
  state : SeamState
  probeAt : ℤ
deriving DecidableEq

/-- Nothing is known. -/
def Seam.initial : Seam := ⟨.unknown, 0⟩

/-- The type switch of `cfSeam`. -/
def Reply.active : Reply → Bool
  | .float64 v => v ≠ 0
  | .int64 v => v ≠ 0
  | .number (.ok n) => n ≠ 0
  | .number (.error _) => false
  | .text _ => false
  | .other => false

/-- The answer is still kept. -/
def Seam.cached (s : Seam) (now : ℤ) : Bool := s.state ≠ .unknown ∧ now < s.probeAt

/-- What an answer tells. -/
def Seam.probed (now : ℤ) : Called → Seam
  | .error _ => ⟨.unsupported, now + cfSeamReprobeSeconds⟩
  | .ok ret => ⟨if ret.active then .active else .inactive, now + 30⟩

/-- `cfSeam`; `ret` is what the probe returns, if there is one. -/
def cfSeam (s : Seam) (now : ℤ) (ret : Called) : Seam :=
  if s.cached now then s else Seam.probed now ret

/-- What `encoding/json` and `fmt` do with the values of the seam. -/
structure Codec (Op : Type) where
  marshal : Op → Except String String
  unmarshal : String → Except String Verdict
  /-- `%v` -/
  format : Reply → String
  /-- `%q` -/
  quote : String → String

section

variable {Op : Type} (json : Codec Op)

/-- `cfFileOpPrepare` after `cfSeam` has returned `state`; `call` is the RPC `cf_fileop_prepare`.
    None allows the write. -/
def cfFileOpPrepare (state : SeamState) (fop : Op) (call : String → Called) : Option AppError :=
  if state = .unsupported then none
  else match json.marshal fop with
    | .error err => some ⟨some ("failed to encode file operation: " ++ err), "", 500⟩
    | .ok payload => match call payload with
      | .error err =>
        if state = .inactive then none
        else some ⟨some err, "The server cannot verify this operation right now.", 503⟩
      | .ok ret => match verdictText ret with
        | some raw => match json.unmarshal raw with
          | .error err =>
            if state = .inactive then none
            else some ⟨some ("failed to decode verdict " ++ json.quote raw ++ ": " ++ err), "", 503⟩
          | .ok verdict =>
            if verdict.allowed then none
            else some ⟨none, verdict.message, cfHTTPStatus verdict.code⟩
        | none =>
          if state = .inactive then none
          else
            some ⟨some ("malformed verdict from cf_fileop_prepare: " ++ json.format ret), "", 503⟩
where
  /-- `raw, ok := ret.(string)`, and a verdict is not empty -/
  verdictText : Reply → Option String
    | .text raw => if raw = "" then none else some raw
    | _ => none

/-- Seaf-server has answered the call for `fop` with permission. -/
def Permitted (fop : Op) (call : String → Called) : Prop :=
  ∃ payload raw verdict, json.marshal fop = .ok payload ∧ call payload = .ok (.text raw) ∧
    raw ≠ "" ∧ json.unmarshal raw = .ok verdict ∧ verdict.allowed = true

end

/-- A call of `cfSeam`, from `cfFileOpPrepare` or `cfFileOpReport`: the reading of the clock, and
    what a probe there gets. -/
structure Visit where
  now : ℤ
  ret : Called

/-- The process, with the answers its probes have got, the latest first. -/
structure Process where
  seam : Seam
  answers : List Called

/-- The process at its start. -/
def Process.start : Process := ⟨Seam.initial, []⟩

/-- One visit of the seam. -/
def Process.visit (p : Process) (v : Visit) : Process where
  seam := cfSeam p.seam v.now v.ret
  answers := if p.seam.cached v.now then p.answers else v.ret :: p.answers

/-- Visits in order. -/
def Process.run (vs : List Visit) : Process := vs.foldl Process.visit Process.start

/-! ## What a probe has said -/

/-- The number in a reply. -/
def Reply.value? : Reply → Option ℚ
  | .float64 v => some v
  | .int64 v => some v
  | .number (.ok n) => some n
  | .number (.error _) => none
  | .text _ => none
  | .other => none

/-- The answer says active. -/
def SaysActive (a : Called) : Prop := ∃ ret v, a = .ok ret ∧ ret.value? = some v ∧ v ≠ 0

/-- The answer says inactive. -/
def SaysInactive (a : Called) : Prop := ∃ ret, a = .ok ret ∧ ret.value? = some 0

/-- The probe was answered, and with a number. -/
def Answered (a : Called) : Prop := ∃ ret v, a = .ok ret ∧ ret.value? = some v

/-- After every answer that a provider is registered there is one that none is. -/
def Deregistered (answers : List Called) : Prop :=
  ∀ later a earlier, answers = later ++ a :: earlier → SaysActive a → ∃ b ∈ later, SaysInactive b

theorem Reply.active_iff (ret : Reply) : ret.active = true ↔ ∃ v, ret.value? = some v ∧ v ≠ 0 := by
  cases ret with
  | float64 v => simp [Reply.active, Reply.value?]
  | int64 v => simp [Reply.active, Reply.value?]
  | number n => cases n <;> simp [Reply.active, Reply.value?]
  | text raw => simp [Reply.active, Reply.value?]
  | other => simp [Reply.active, Reply.value?]

theorem Answered.says {a : Called} (h : Answered a) : SaysActive a ∨ SaysInactive a := by
  obtain ⟨ret, v, rfl, hv⟩ := h
  by_cases hne : v = 0
  · exact Or.inr ⟨ret, rfl, by rw [hv, hne]⟩
  · exact Or.inl ⟨ret, v, rfl, hv, hne⟩

theorem Deregistered.cons_inactive {a : Called} {answers : List Called} (h : SaysInactive a) :
    Deregistered (a :: answers) := by
  intro later b earlier heq hb
  cases later with
  | nil =>
    obtain ⟨rfl, -⟩ := List.cons.inj heq
    obtain ⟨ret, rfl, hzero⟩ := h
    obtain ⟨ret', v, heq', hv, hne⟩ := hb
    cases heq'
    exact absurd (Option.mem_unique hv hzero) hne
  | cons c later =>
    obtain ⟨rfl, -⟩ := List.cons.inj heq
    exact ⟨a, List.mem_cons_self, h⟩

/-! ## The world is what the latest probe says -/

/-- What the last answer tells. -/
def worldOf : Option Called → SeamState
  | none => .unknown
  | some (.error _) => .unsupported
  | some (.ok ret) => if ret.active then .active else .inactive

/-- The cached state and the history agree. -/
def Process.Tracks (p : Process) : Prop := p.seam.state = worldOf p.answers.head?

theorem Seam.probed_state (now : ℤ) (ret : Called) :
    (Seam.probed now ret).state = worldOf (some ret) := by
  cases ret with
  | error err => rfl
  | ok ret => rfl

theorem Process.Tracks.visit {p : Process} (h : p.Tracks) (v : Visit) : (p.visit v).Tracks := by
  unfold Process.Tracks Process.visit cfSeam
  by_cases hc : p.seam.cached v.now = true
  · rw [if_pos hc, if_pos hc]
    exact h
  · rw [if_neg hc, if_neg hc]
    exact Seam.probed_state v.now v.ret

theorem Process.run_tracks (vs : List Visit) : (Process.run vs).Tracks := by
  have hrun : ∀ (vs : List Visit) (p : Process), p.Tracks → (vs.foldl Process.visit p).Tracks := by
    intro vs
    induction vs with
    | nil => exact fun p h => h
    | cons v vs ih => exact fun p h => ih _ (h.visit v)
  exact hrun vs _ rfl

/-! ## What each world allows -/

section

variable {Op : Type} (json : Codec Op)

theorem cfFileOpPrepare_active {fop : Op} {call : String → Called}
    (h : cfFileOpPrepare json .active fop call = none) : Permitted json fop call := by
  unfold cfFileOpPrepare at h
  rw [if_neg (by decide)] at h
  cases hm : json.marshal fop with
  | error err => simp [hm] at h
  | ok payload =>
    cases hcall : call payload with
    | error err => simp [hm, hcall] at h
    | ok ret =>
      cases hraw : cfFileOpPrepare.verdictText ret with
      | none => simp [hm, hcall, hraw] at h
      | some raw =>
        cases hu : json.unmarshal raw with
        | error err => simp [hm, hcall, hraw, hu] at h
        | ok verdict =>
          have hallowed : verdict.allowed = true := by simpa [hm, hcall, hraw, hu] using h
          cases ret with
          | text raw' =>
            simp only [cfFileOpPrepare.verdictText] at hraw
            split at hraw
            · cases hraw
            next hne =>
              cases hraw
              exact ⟨payload, raw, verdict, hm, hcall, hne, hu, hallowed⟩
          | float64 v => cases hraw
          | int64 v => cases hraw
          | number n => cases hraw
          | other => cases hraw

theorem not_permitted_error (fop : Op) (err : String) :
    ¬ Permitted json fop (fun _ => .error err) := by
  rintro ⟨payload, raw, verdict, -, hcall, -⟩
  cases hcall

/-- Once a provider was registered, no write gets through without permission exactly if none is
    registered any more, or the latest probe was answered with a number. -/
theorem fails_closed_iff (vs : List Visit) (v : Visit) (fop : Op)
    (hactive : ∃ a ∈ ((Process.run vs).visit v).answers, SaysActive a) :
    (∀ call, cfFileOpPrepare json ((Process.run vs).visit v).seam.state fop call = none →
        Permitted json fop call ∨ Deregistered ((Process.run vs).visit v).answers) ↔
      Deregistered ((Process.run vs).visit v).answers ∨
      ∃ a, ((Process.run vs).visit v).answers.head? = some a ∧
        (Answered a ∨ (∃ ret, a = .ok ret) ∧ ∀ payload, json.marshal fop ≠ .ok payload) := by
  have htracks := (Process.run_tracks vs).visit v
  generalize (Process.run vs).visit v = p at hactive htracks
  rw [Process.Tracks] at htracks
  rw [htracks]
  cases hp : p.answers with
  | nil => simp [hp] at hactive
  | cons a answers =>
    rw [List.head?_cons]
    constructor
    · intro hclosed
      by_contra hnot
      obtain ⟨hreg, hlast⟩ := not_or.mp hnot
      have hrefused : cfFileOpPrepare json (worldOf (some a)) fop (fun _ => .error "") ≠ none :=
        fun hnone => (hclosed _ hnone).elim (not_permitted_error json fop "") hreg
      cases a with
      | error err => exact hrefused (if_pos rfl)
      | ok ret =>
        -- the probe was answered, but not with a number: the world is `inactive`
        have hvalue : ret.value? = none :=
          Option.eq_none_iff_forall_ne_some.mpr fun v hv =>
            hlast ⟨_, rfl, Or.inl ⟨ret, v, rfl, hv⟩⟩
        have hworld : worldOf (some (.ok ret)) = .inactive :=
          if_neg fun hact => by
            obtain ⟨v, hv, -⟩ := ret.active_iff.mp hact
            simp [hvalue] at hv
        have hmarshal : ∃ payload, json.marshal fop = .ok payload := by
          by_contra hno
          exact hlast ⟨_, rfl, Or.inr ⟨⟨ret, rfl⟩, fun payload hm => hno ⟨payload, hm⟩⟩⟩
        obtain ⟨payload, hm⟩ := hmarshal
        rw [hworld] at hrefused
        exact hrefused (by simp [cfFileOpPrepare, hm])
    · rintro (hdereg | ⟨b, hb, hanswer⟩) call hnone
      · exact Or.inr hdereg
      · cases hb
        rcases hanswer with hanswer | ⟨⟨ret, rfl⟩, hmarshal⟩
        · rcases hanswer.says with hact | hinact
          · obtain ⟨ret, v, rfl, hv, hne⟩ := hact
            have hworld : worldOf (some (.ok ret)) = .active :=
              if_pos (ret.active_iff.mpr ⟨v, hv, hne⟩)
            rw [hworld] at hnone
            exact Or.inl (cfFileOpPrepare_active json hnone)
          · exact Or.inr (Deregistered.cons_inactive hinact)
        · have hworld : worldOf (some (.ok ret)) ≠ .unsupported := by
            by_cases hact : ret.active = true <;> simp [worldOf, hact]
          cases hm : json.marshal fop with
          | ok payload => exact absurd hm (hmarshal payload)
          | error err => exact absurd hnone (by simp [cfFileOpPrepare, hm, hworld])

end

/-! A seaf-server on which every file is locked. -/

def lockedCodec : Codec Unit where
  marshal _ := .ok "delete"
  unmarshal _ := .ok ⟨false, cfErrFileLocked, "locked"⟩
  format _ := "0"
  quote raw := raw

def openCodec : Codec Unit :=
  { lockedCodec with unmarshal := fun _ => .ok ⟨true, 0, ""⟩ }

def sawActive : List Visit := [⟨0, .ok (.int64 1)⟩]

theorem sawActive_answers (ret : Called) :
    ((Process.run sawActive).visit ⟨30, ret⟩).answers = [ret, .ok (.int64 1)] := by rfl

theorem saysActive_one : SaysActive (.ok (.int64 1)) := ⟨_, 1, rfl, rfl, by decide⟩

/-- The providers are asked again after half a minute, and allow the write. -/
theorem active_seam_fails_closed :
    cfFileOpPrepare openCodec ((Process.run sawActive).visit ⟨30, .ok (.int64 1)⟩).seam.state ()
      (fun _ => .ok (.text "allowed")) = none ∧
    (Permitted openCodec () (fun _ => .ok (.text "allowed")) ∨
      Deregistered ((Process.run sawActive).visit ⟨30, .ok (.int64 1)⟩).answers) :=
  ⟨rfl, (fails_closed_iff openCodec sawActive ⟨30, .ok (.int64 1)⟩ ()
    ⟨_, List.mem_cons_self, saysActive_one⟩).mpr
      (Or.inr ⟨_, rfl, Or.inl ⟨_, 1, rfl, rfl⟩⟩) _ rfl⟩

/-- The probe after the first half minute fails, and the locked file is written unasked. -/
theorem failed_probe_opens_seam :
    (∃ a ∈ ((Process.run sawActive).visit ⟨30, .error "broken pipe"⟩).answers, SaysActive a) ∧
    cfFileOpPrepare lockedCodec
      ((Process.run sawActive).visit ⟨30, .error "broken pipe"⟩).seam.state ()
      (fun _ => .ok (.text "refused")) = none ∧
    ¬ Permitted lockedCodec () (fun _ => .ok (.text "refused")) ∧
    ¬ Deregistered ((Process.run sawActive).visit ⟨30, .error "broken pipe"⟩).answers := by
  rw [sawActive_answers]
  refine ⟨⟨_, by simp, saysActive_one⟩, rfl, ?_, ?_⟩
  · rintro ⟨payload, raw, verdict, -, -, -, hverdict, hallowed⟩
    cases hverdict
    cases hallowed
  · intro hdereg
    obtain ⟨b, hb, ret, rfl, -⟩ := hdereg [_] _ [] rfl saysActive_one
    simp at hb

end Fileserver

end CloudFile
