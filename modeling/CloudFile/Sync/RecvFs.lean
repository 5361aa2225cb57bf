/-
  Receiving fs objects (`fileserver/sync_api.go`, `server/http-server.c`). A body is frames of 40
  hexadecimal digits, a size in four bytes and that many bytes (`fsFraming`). The Go loop adds 44
  to the size in 32 bits and stops at the last 44 bytes; the C loop counts in an `int` and takes
  an empty allocation for a failed one.
-/
import CloudFile.Lib.Framing
import Mathlib.Algebra.Ring.Int.Defs
import Mathlib.Algebra.Ring.Nat

namespace CloudFile

open List

abbrev Bytes := List UInt8

/-! ## The model -/

/-- A digit of `IsObjectIDValid`, `is_object_id_valid`. -/
def isIdChar (c : UInt8) : Bool := (48 ≤ c && c ≤ 57) || (97 ≤ c && c ≤ 102)

/-- `utils.IsObjectIDValid`, `is_object_id_valid` -/
def isObjectIDValid (objID : Bytes) : Bool := objID.length = 40 && objID.all isIdChar

/-- `binary.BigEndian`, `ntohl` -/
def be32 : Bytes → ℕ
  | [a, b, c, d] => a.toNat * 2 ^ 24 + b.toNat * 2 ^ 16 + c.toNat * 2 ^ 8 + d.toNat
  | _ => 0

/-- An object that is written: its id and its bytes. -/
structure RawObject where
  id : Bytes
  data : Bytes
deriving DecidableEq

inductive RecvError where
  | invalidId (id : Bytes)
  | bodySize
  | writeFailed (id : Bytes) (err : String)
deriving DecidableEq

def RecvError.code : RecvError → ℕ
  | invalidId _ => 400
  | bodySize => 400
  | writeFailed _ _ => 500

/-- How a handler ends. -/
inductive Ended where
  /-- the status 200 -/
  | ok
  | refused (err : RecvError)
  /-- a run-time panic: slice bounds out of range -/
  | sliceBounds
deriving DecidableEq

structure Recv where
  written : List RawObject
  ended : Ended
deriving DecidableEq

/-- `obj` has been written before the rest of the loop. -/
def Recv.after (obj : RawObject) (r : Recv) : Recv := { r with written := obj :: r.written }

section

variable (write : RawObject → Except String Unit)

namespace Fileserver

/-- `fsmgr.WriteRaw`, and the next pass. -/
def recvWrite (obj : RawObject) (again : Option Recv) : Option Recv :=
  match write obj with
  | .error err => some ⟨[], .refused (.writeFailed obj.id err)⟩
  | .ok () => again.map (Recv.after obj)

/-- The loop of `recvFSCB` over the body that is left. -/
def recvLoop : ℕ → Bytes → Option Recv
  | 0, _ => none
  | fuel + 1, fsBuf =>
    if 44 < fsBuf.length then
      let objID := fsBuf.take 40
      if isObjectIDValid objID = false then some ⟨[], .refused (.invalidId objID)⟩
      else
        let objSize := be32 ((fsBuf.take 44).drop 40)
        -- the sum is a `uint32`
        let stop := (44 + objSize) % 2 ^ 32
        if fsBuf.length < stop then some ⟨[], .refused .bodySize⟩
        else if stop < 44 then some ⟨[], .sliceBounds⟩
        else recvWrite write ⟨objID, (fsBuf.take stop).drop 44⟩ (recvLoop fuel (fsBuf.drop stop))
    else if fsBuf.length = 0 then some ⟨[], .ok⟩
    else some ⟨[], .refused .bodySize⟩

/-- `recvFSCB`, after the token, the permission and the store id, with the body read. -/
def recvFSCB (body : Bytes) : Option Recv := recvLoop write (body.length + 1) body

end Fileserver

namespace Server

/-- How `post_recv_fs_cb` ends; the reply is sent in the loop, or after it when the length has
    come down to 0. -/
inductive Replied where
  | ok
  | badRequest
  | serverError
  | none
deriving DecidableEq

structure Recv where
  written : List RawObject
  reply : Replied
deriving DecidableEq

def Recv.after (obj : RawObject) (r : Recv) : Recv := { r with written := obj :: r.written }

/-- `seaf_obj_store_write_obj`, and the next pass. -/
def recvWrite (obj : RawObject) (again : Option Recv) : Option Recv :=
  match write obj with
  | .error _ => some ⟨[], .serverError⟩
  | .ok () => again.map (Recv.after obj)

/-- The loop of `post_recv_fs_cb`; `fsConLen` is the `int` that counts the body down. -/
def recvLoop : ℕ → Bytes → ℤ → Option Recv
  | 0, _, _ => none
  | fuel + 1, buffer, fsConLen =>
    if 0 < fsConLen then
      if fsConLen < 44 then some ⟨[], .badRequest⟩
      else
        let hdr := buffer.take 44
        let objId := hdr.take 40
        let conLen := be32 (hdr.drop 40)
        if isObjectIDValid objId = false then some ⟨[], .badRequest⟩
        else if fsConLen - 44 < conLen then some ⟨[], .badRequest⟩
        -- `g_new0 (char, 0)` is NULL
        else if conLen = 0 then some ⟨[], .serverError⟩
        else recvWrite write ⟨objId, (buffer.drop 44).take conLen⟩
          (recvLoop fuel (buffer.drop (44 + conLen)) (fsConLen - (conLen + 44)))
    else if fsConLen = 0 then some ⟨[], .ok⟩
    else some ⟨[], .none⟩

/-- `int fs_con_len = evbuffer_get_length (req->buffer_in)` -/
def intLength (body : Bytes) : ℤ :=
  -- the sign is bit 31
  if body.length / 2 ^ 31 % 2 = 0 then (body.length : ℤ) % 2 ^ 32
  else (body.length : ℤ) % 2 ^ 32 - 2 ^ 32

/-- `post_recv_fs_cb`, after the token, the permission and the store id. An `int` that is negative
    is not less than `sizeof(FsHdr)`. -/
def postRecvFsCb (body : Bytes) : Option Recv :=
  if 0 ≤ intLength body ∧ intLength body < 44 then some ⟨[], .badRequest⟩
  else recvLoop write (body.length + 1) body (intLength body)

end Server

end

/-! ## What a body holds -/

/-- A storage that takes every object. -/
def stored : RawObject → Except String Unit := fun _ => .ok ()

def fsFraming : Framing UInt8 where
  headerLen := 44
  headerLen_pos := by decide
  valid hdr := isObjectIDValid (hdr.take 40)
  size hdr := be32 (hdr.drop 40)

def objectOf (f : Frame UInt8) : RawObject := ⟨f.header.take 40, f.content⟩

/-- The rest of a body begins with a valid id and a size that leaves 32 bits with the header. -/
def Oversize (b : Bytes) : Prop :=
  44 < b.length ∧ isObjectIDValid (b.take 40) = true ∧
    2 ^ 32 - 44 ≤ be32 ((b.take 44).drop 40)

/-- The rest of a body is an empty object. -/
def EmptyObject (b : Bytes) : Prop :=
  b.length = 44 ∧ isObjectIDValid (b.take 40) = true ∧ be32 ((b.take 44).drop 40) = 0

/-- After no frames does the body go on with a size that overflows, nor end with an empty object. -/
def Readable (body : Bytes) : Prop :=
  ∀ fs rest, fsFraming.Leads body fs rest → ¬ Oversize rest ∧ ¬ EmptyObject rest

/-- No frame of the body is empty. -/
def NoEmptyFrame (body : Bytes) : Prop := ∀ f ∈ (fsFraming.longest body).1, f.content ≠ []

def framesLength (body : Bytes) : ℕ :=
  ((fsFraming.longest body).1.flatMap Framing.encode).length

theorem be32_lt (bs : Bytes) : be32 bs < 2 ^ 32 := by
  unfold be32
  split
  next a b c d =>
    have ha := a.toNat_lt
    have hb := b.toNat_lt
    have hc := c.toNat_lt
    have hd := d.toNat_lt
    omega
  · decide

theorem take_take_header (b : Bytes) : (b.take 44).take 40 = b.take 40 := by
  rw [take_take]
  rfl

theorem fsFraming_next (b : Bytes) :
    fsFraming.next b = if isObjectIDValid (b.take 40) = true ∧ 44 ≤ b.length ∧
        44 + be32 ((b.take 44).drop 40) ≤ b.length then
      some (⟨b.take 44, (b.drop 44).take (be32 ((b.take 44).drop 40))⟩,
        b.drop (44 + be32 ((b.take 44).drop 40)))
    else none := by
  simp only [Framing.next, fsFraming, take_take_header]

variable {b rest : Bytes} {f : Frame UInt8}

theorem fsFraming_next_some (h : fsFraming.next b = some (f, rest)) :
    isObjectIDValid (b.take 40) = true ∧ 44 + be32 ((b.take 44).drop 40) ≤ b.length ∧
      objectOf f = ⟨b.take 40, (b.drop 44).take (be32 ((b.take 44).drop 40))⟩ ∧
      rest = b.drop (44 + be32 ((b.take 44).drop 40)) ∧
      f.content.length = be32 ((b.take 44).drop 40) := by
  rw [fsFraming_next] at h
  split at h
  next hc =>
    obtain ⟨hid, hle, hsize⟩ := hc
    cases h
    refine ⟨hid, hsize, ?_, rfl, ?_⟩
    · rw [objectOf, take_take_header]
    · rw [length_take, length_drop]
      omega
  · cases h

variable {b : Bytes}

theorem fsFraming_next_none (h : fsFraming.next b = none)
    (hid : isObjectIDValid (b.take 40) = true) (hle : 44 ≤ b.length) :
    b.length < 44 + be32 ((b.take 44).drop 40) := by
  rw [fsFraming_next] at h
  by_contra hlt
  rw [if_pos ⟨hid, hle, Nat.le_of_not_lt hlt⟩] at h
  cases h

theorem EmptyObject.next (h : EmptyObject b) :
    ∃ f, fsFraming.next b = some (f, []) := by
  obtain ⟨hlen, hid, hzero⟩ := h
  rw [fsFraming_next, if_pos ⟨hid, by omega, by omega⟩, hzero]
  exact ⟨_, by rw [drop_eq_nil_of_le (by omega)]⟩

/-! ## The Go loop -/

namespace Fileserver

section

variable {b rest : Bytes} {f : Frame UInt8} (fuel : ℕ)

theorem recvLoop_nil : recvLoop stored (fuel + 1) [] = some ⟨[], .ok⟩ := rfl

theorem recvLoop_oversize (h : Oversize b) :
    recvLoop stored (fuel + 1) b = some ⟨[], .sliceBounds⟩ := by
  obtain ⟨hlen, hid, hsize⟩ := h
  have hlt := be32_lt ((b.take 44).drop 40)
  have hstop : (44 + be32 ((b.take 44).drop 40)) % 2 ^ 32 < 44 := by omega
  simp only [recvLoop]
  rw [if_pos hlen, if_neg (by simp [hid]), if_neg (by omega), if_pos hstop]

theorem recvLoop_short (h : b.length ≤ 44) (hne : b ≠ []) :
    recvLoop stored (fuel + 1) b = some ⟨[], .refused .bodySize⟩ := by
  simp only [recvLoop]
  rw [if_neg (by omega), if_neg (by simpa using hne)]

theorem recvLoop_stop (h : fsFraming.next b = none) (hne : b ≠ []) (hsize : ¬ Oversize b) :
    ∃ err : RecvError, err.code = 400 ∧ recvLoop stored (fuel + 1) b = some ⟨[], .refused err⟩ := by
  by_cases hlen : 44 < b.length
  · by_cases hid : isObjectIDValid (b.take 40) = true
    · have hshort := fsFraming_next_none h hid (by omega)
      have hsmall : be32 ((b.take 44).drop 40) < 2 ^ 32 - 44 := by
        by_contra hlarge
        exact hsize ⟨hlen, hid, Nat.le_of_not_lt hlarge⟩
      refine ⟨.bodySize, rfl, ?_⟩
      simp only [recvLoop]
      rw [if_pos hlen, if_neg (by simp [hid]), Nat.mod_eq_of_lt (by omega), if_pos hshort]
    · refine ⟨.invalidId (b.take 40), rfl, ?_⟩
      simp only [recvLoop]
      rw [if_pos hlen, if_pos (by simpa using hid)]
  · exact ⟨.bodySize, rfl, recvLoop_short fuel (by omega) hne⟩

theorem recvLoop_frame (h : fsFraming.next b = some (f, rest)) (hsize : ¬ Oversize b)
    (hempty : ¬ EmptyObject b) :
    recvLoop stored (fuel + 1) b = (recvLoop stored fuel rest).map (Recv.after (objectOf f)) := by
  obtain ⟨hid, hle, hobj, rfl, -⟩ := fsFraming_next_some h
  have hlen : 44 < b.length := by
    by_contra hshort
    exact hempty ⟨by omega, hid, by omega⟩
  have hsmall : 44 + be32 ((b.take 44).drop 40) < 2 ^ 32 := by
    by_contra hlarge
    exact hsize ⟨hlen, hid, by omega⟩
  simp only [recvLoop]
  rw [if_pos hlen, if_neg (by simp [hid]), Nat.mod_eq_of_lt hsmall, if_neg (by omega),
    if_neg (by omega), hobj, drop_take, Nat.add_sub_cancel_left]
  rfl

end

theorem Readable.step (h : Readable b)
    (hnext : fsFraming.next b = some (f, rest)) : Readable rest :=
  fun _ _ hleads => h _ _ (Framing.Leads.cons hnext hleads)

theorem recvLoop_readable {fuel : ℕ} (h : Readable b) (hfuel : b.length < fuel) :
    ∃ err : RecvError, err.code = 400 ∧ recvLoop stored fuel b = some
      ⟨(fsFraming.longest b).1.map objectOf,
        if (fsFraming.longest b).2 = [] then .ok else .refused err⟩ := by
  induction fuel generalizing b with
  | zero => omega
  | succ fuel ih =>
    obtain ⟨hsize, hempty⟩ := h [] b (Framing.Leads.nil b)
    cases hnext : fsFraming.next b with
    | none =>
      rw [fsFraming.longest_none hnext]
      by_cases hne : b = []
      · subst hne
        exact ⟨.bodySize, rfl, recvLoop_nil fuel⟩
      · obtain ⟨err, hcode, hloop⟩ := recvLoop_stop fuel hnext hne hsize
        exact ⟨err, hcode, by rw [hloop, if_neg hne]; rfl⟩
    | some p =>
      obtain ⟨f, rest⟩ := p
      have hlt := fsFraming.next_length_lt hnext
      obtain ⟨err, hcode, hloop⟩ := ih (Readable.step h hnext) (by omega)
      refine ⟨err, hcode, ?_⟩
      rw [recvLoop_frame fuel hnext hsize hempty, hloop, fsFraming.longest_some hnext]
      rfl

theorem recvLoop_unreadable {fuel : ℕ} {fs : List (Frame UInt8)}
    (hleads : fsFraming.Leads b fs rest) (hbad : Oversize rest ∨ EmptyObject rest)
    (hfuel : b.length < fuel) :
    ∃ r, recvLoop stored fuel b = some r ∧
      (r.ended = .sliceBounds ∨ r.ended ≠ .ok ∧ (fsFraming.longest b).2 = []) := by
  induction hleads generalizing fuel with
  | nil b =>
    obtain ⟨fuel, rfl⟩ := Nat.exists_eq_succ_of_ne_zero (by omega : fuel ≠ 0)
    rcases hbad with hsize | hempty
    · exact ⟨_, recvLoop_oversize fuel hsize, Or.inl rfl⟩
    · obtain ⟨f, hnext⟩ := hempty.next
      have hne : b ≠ [] := by
        rintro rfl
        cases hempty.1
      refine ⟨_, recvLoop_short fuel hempty.1.le hne, Or.inr ⟨nofun, ?_⟩⟩
      rw [fsFraming.longest_some hnext, fsFraming.longest_none fsFraming.next_nil]
  | @cons b b' rest f fs hnext hleads ih =>
    obtain ⟨fuel, rfl⟩ := Nat.exists_eq_succ_of_ne_zero (by omega : fuel ≠ 0)
    have hlt := fsFraming.next_length_lt hnext
    by_cases hsize : Oversize b
    · exact ⟨_, recvLoop_oversize fuel hsize, Or.inl rfl⟩
    · have hempty : ¬ EmptyObject b := by
        intro hempty
        obtain ⟨f', hnext'⟩ := hempty.next
        rw [hnext] at hnext'
        cases hnext'
        -- nothing follows an object that fills the body
        cases hleads with
        | nil => rcases hbad with h | h <;> exact absurd h.1 (by decide)
        | cons h => simp [fsFraming.next_nil] at h
      obtain ⟨r, hr, hended⟩ := ih hbad (by omega : b'.length < fuel)
      refine ⟨r.after (objectOf f), ?_, ?_⟩
      · rw [recvLoop_frame fuel hnext hsize hempty, hr]
        rfl
      · rwa [fsFraming.longest_some hnext]

/-- `recvFSCB` answers 200 if the body is frames, and has written exactly those; otherwise 400,
    and it has written only frames that the body begins with. -/
def ReadsFrames (body : Bytes) : Prop :=
  ∃ r, recvFSCB stored body = some r ∧ r.ended ≠ .sliceBounds ∧
    (∀ fs, fsFraming.IsConcat body fs → r.ended = .ok ∧ r.written = fs.map objectOf) ∧
    ((¬ ∃ fs, fsFraming.IsConcat body fs) →
      (∃ err : RecvError, r.ended = .refused err ∧ err.code = 400) ∧
      r.written <+: (fsFraming.longest body).1.map objectOf)

theorem readsFrames_iff (body : Bytes) : ReadsFrames body ↔ Readable body := by
  constructor
  · rintro ⟨r, hr, hpanic, hconcat, -⟩
    by_contra hnot
    obtain ⟨fs, rest, hleads, hbad⟩ : ∃ fs rest, fsFraming.Leads body fs rest ∧
        (Oversize rest ∨ EmptyObject rest) := by
      by_contra hno
      refine hnot fun fs rest hleads => ⟨fun h => ?_, fun h => ?_⟩
      · exact hno ⟨fs, rest, hleads, Or.inl h⟩
      · exact hno ⟨fs, rest, hleads, Or.inr h⟩
    obtain ⟨r', hr', hended⟩ := recvLoop_unreadable hleads hbad (Nat.lt_succ_self body.length)
    obtain rfl := Option.mem_unique hr hr'
    rcases hended with hslice | ⟨hok, hrest⟩
    · exact hpanic hslice
    · exact hok (hconcat _ (fsFraming.isConcat_iff.mpr (Prod.ext rfl hrest))).1
  · intro hreadable
    obtain ⟨err, hcode, hr⟩ := recvLoop_readable hreadable (Nat.lt_succ_self body.length)
    refine ⟨_, hr, ?_, ?_, ?_⟩
    · show (if (fsFraming.longest body).2 = [] then Ended.ok else .refused err) ≠ .sliceBounds
      split <;> nofun
    · intro fs hfs
      rw [fsFraming.isConcat_iff.mp hfs]
      exact ⟨by simp, rfl⟩
    · intro hno
      have hrest : (fsFraming.longest body).2 ≠ [] := fun h =>
        hno ⟨_, fsFraming.isConcat_iff.mpr (Prod.ext rfl h)⟩
      exact ⟨⟨err, if_neg hrest, hcode⟩, prefix_refl _⟩

end Fileserver

/-! ## The C loop -/

namespace Server

section

variable {b rest : Bytes} {f : Frame UInt8} {conLen : ℤ} (fuel : ℕ)

theorem recvLoop_stop (hle : conLen ≤ b.length) (hno : ∀ f rest, fsFraming.next b = some (f, rest) →
      conLen < (Framing.encode f).length) :
    ∃ reply, recvLoop stored (fuel + 1) b conLen = some ⟨[], reply⟩ := by
  simp only [recvLoop]
  by_cases hpos : 0 < conLen
  · rw [if_pos hpos]
    by_cases hhdr : conLen < 44
    · exact ⟨_, if_pos hhdr⟩
    · rw [if_neg hhdr, take_take_header]
      by_cases hid : isObjectIDValid (b.take 40) = true
      · rw [if_neg (by simp [hid])]
        refine ⟨_, if_pos ?_⟩
        by_contra hfits
        have hnext := fsFraming_next b
        rw [if_pos ⟨hid, by omega, by omega⟩] at hnext
        have hlen := (fsFraming.next_some hnext).1.encode_length
        have hshort := hno _ _ hnext
        rw [hlen] at hshort
        change conLen < ((44 + be32 ((b.take 44).drop 40) : ℕ) : ℤ) at hshort
        omega
      · exact ⟨_, if_pos (by simpa using hid)⟩
  · rw [if_neg hpos]
    by_cases hzero : conLen = 0
    · exact ⟨_, if_pos hzero⟩
    · exact ⟨_, if_neg hzero⟩

theorem recvLoop_frame (hnext : fsFraming.next b = some (f, rest)) (hne : f.content ≠ [])
    (hle : ((Framing.encode f).length : ℤ) ≤ conLen) :
    recvLoop stored (fuel + 1) b conLen =
      (recvLoop stored fuel rest (conLen - (Framing.encode f).length)).map
        (Recv.after (objectOf f)) := by
  obtain ⟨hid, hsize, hobj, rfl, hcontent⟩ := fsFraming_next_some hnext
  have hlen : (Framing.encode f).length = be32 ((b.take 44).drop 40) + 44 := by
    rw [Framing.encode, length_append, hcontent,
      (fsFraming.next_some hnext).1.header_length]
    exact Nat.add_comm _ _
  have hpos : be32 ((b.take 44).drop 40) ≠ 0 := by
    rw [← hcontent]
    simpa using hne
  rw [hlen] at hle ⊢
  simp only [recvLoop, take_take_header]
  rw [if_pos (by omega), if_neg (by omega), if_neg (by simp [hid]), if_neg (by omega),
    if_neg hpos, hobj]
  rfl

end

theorem recvLoop_written {fuel : ℕ} {conLen : ℤ} (hne : NoEmptyFrame b)
    (hle : conLen ≤ b.length) (hfuel : b.length < fuel) :
    ∃ r, recvLoop stored fuel b conLen = some r ∧
      (r.written = (fsFraming.longest b).1.map objectOf ↔ (framesLength b : ℤ) ≤ max 0 conLen) := by
  induction fuel generalizing b conLen with
  | zero => omega
  | succ fuel ih =>
    cases hnext : fsFraming.next b with
    | none =>
      obtain ⟨reply, hr⟩ := recvLoop_stop fuel hle (fun f rest h => by simp [hnext] at h)
      refine ⟨_, hr, ?_⟩
      simp [framesLength, fsFraming.longest_none hnext]
    | some p =>
      obtain ⟨f, rest⟩ := p
      have hlongest := fsFraming.longest_some hnext
      have hlength : framesLength b = (Framing.encode f).length + framesLength rest := by
        rw [framesLength, hlongest, flatMap_cons, length_append, framesLength]
      have hpos : 0 < (Framing.encode f).length := by
        rw [(fsFraming.next_some hnext).1.encode_length]
        have := fsFraming.headerLen_pos
        omega
      by_cases hfits : ((Framing.encode f).length : ℤ) ≤ conLen
      · have hcontent : f.content ≠ [] := hne f (by rw [hlongest]; exact mem_cons_self)
        have hrest : NoEmptyFrame rest := fun g hg =>
          hne g (by rw [hlongest]; exact mem_cons_of_mem _ hg)
        have hb : b.length = (Framing.encode f).length + rest.length := by
          conv_lhs => rw [(fsFraming.next_some hnext).2, length_append]
        obtain ⟨r, hr, hwritten⟩ := ih hrest
          (by omega : conLen - (Framing.encode f).length ≤ rest.length) (by omega)
        refine ⟨r.after (objectOf f), ?_, ?_⟩
        · rw [recvLoop_frame fuel hnext hcontent hfits, hr]
          rfl
        · rw [hlongest, map_cons, Recv.after, cons_inj_right, hwritten]
          omega
      · obtain ⟨reply, hr⟩ := recvLoop_stop fuel hle (fun g rest' h => by
          rw [hnext] at h
          cases h
          omega)
        refine ⟨_, hr, ?_⟩
        rw [hlongest, map_cons]
        constructor
        · intro h
          cases h
        · intro h
          omega

theorem intLength_le (body : Bytes) : intLength body ≤ body.length := by
  unfold intLength
  split <;> omega

/-- Of a body without empty frames `post_recv_fs_cb` writes exactly the frames. -/
def WritesFrames (body : Bytes) : Prop :=
  NoEmptyFrame body → ∃ r, postRecvFsCb stored body = some r ∧
    r.written = (fsFraming.longest body).1.map objectOf

theorem writesFrames_iff (body : Bytes) :
    WritesFrames body ↔
      (NoEmptyFrame body → (framesLength body : ℤ) ≤ max 0 (intLength body)) := by
  refine forall_congr' fun hne => ?_
  obtain ⟨r, hr, hwritten⟩ :=
    recvLoop_written hne (intLength_le body) (Nat.lt_succ_self body.length)
  rw [← hwritten]
  by_cases hshort : 0 ≤ intLength body ∧ intLength body < 44
  · have hnil : r.written = [] := by
      obtain ⟨reply, hr'⟩ := recvLoop_stop body.length (intLength_le body) (fun f rest hnext => by
        rw [(fsFraming.next_some hnext).1.encode_length]
        change intLength body < ((44 + fsFraming.size f.header : ℕ) : ℤ)
        omega)
      cases hr.symm.trans hr'
      rfl
    rw [postRecvFsCb, if_pos hshort, hnil]
    simp
  · rw [postRecvFsCb, if_neg hshort, hr]
    simp

end Server

/-- The Go server reads exactly the frames of a body, and the C server writes the same objects,
    unless a size overflows, the body ends in an empty object, or the C server does not count all
    frames. -/
theorem recvFSCB_exact_iff (body : Bytes) :
    Fileserver.ReadsFrames body ∧ Server.WritesFrames body ↔
      Readable body ∧
        (NoEmptyFrame body → (framesLength body : ℤ) ≤ max 0 (Server.intLength body)) :=
  and_congr (Fileserver.readsFrames_iff body) (Server.writesFrames_iff body)

def zeroHeader (size : Bytes) : Bytes := List.replicate 40 48 ++ size

/-- A size of 2^32 - 1 panics; a frame of size 0 is refused. -/
theorem recvFSCB_overflow :
    ¬ Fileserver.ReadsFrames (zeroHeader [255, 255, 255, 255] ++ [0]) ∧
    ¬ Fileserver.ReadsFrames (zeroHeader [0, 0, 0, 0]) := by
  constructor
  · rintro ⟨r, hr, hpanic, -⟩
    have hrun : Fileserver.recvFSCB stored (zeroHeader [255, 255, 255, 255] ++ [0]) =
        some ⟨[], .sliceBounds⟩ := by decide +kernel
    cases hr.symm.trans hrun
    exact hpanic rfl
  · rintro ⟨r, hr, -, hconcat, -⟩
    have hrun : Fileserver.recvFSCB stored (zeroHeader [0, 0, 0, 0]) =
        some ⟨[], .refused .bodySize⟩ := by decide +kernel
    cases hr.symm.trans hrun
    have hframe : fsFraming.IsConcat (zeroHeader [0, 0, 0, 0]) [⟨zeroHeader [0, 0, 0, 0], []⟩] := by
      refine ⟨?_, by decide⟩
      rw [forall_mem_singleton]
      exact ⟨by decide, by decide, by decide⟩
    cases (hconcat _ hframe).1

end CloudFile
