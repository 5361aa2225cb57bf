/-
  The proof of the ACL rules of a library (`common/cf-v2-acl.c`: `cf_v2_acl_proof`;
  `fileserver/cf_v2_acl.go`: `cfACLCurrentProof`): one digest over the rules of the library and of
  its origin, each column with a NUL after it. Two equal proofs are of the same rules
  (`Proves.rows_eq`).
-/
import CloudFile.Acl.Changes
import Mathlib.Data.List.Sort

namespace CloudFile

open List Option

/-! ## The model -/

/-- The separator of the texts. -/
def nul : Char := Char.ofNat 0

/-- A row of `cf_dir_acl` as the query returns it; `path_hash` is a `BINARY(32)`. -/
structure AclRow where
  /-- `HEX(path_hash)` -/
  pathHash : Name
  subjectType : Name
  provider : Name
  nameSpace : Name
  externalId : Name
  revision : Name
  hex : pathHash.length = 64 ∧ pathHash.all (fun c => c.isDigit || 'A' ≤ c && c ≤ 'F') = true
  noNul : ∀ col ∈ [pathHash, subjectType, provider, nameSpace, externalId, revision], nul ∉ col
deriving DecidableEq

/-- The primary key, without the library. -/
def AclRow.key (r : AclRow) : List Name :=
  [r.pathHash, r.subjectType, r.provider, r.nameSpace, r.externalId]

/-- The columns the proof covers. -/
def AclRow.columns (r : AclRow) : List Name := r.key ++ [r.revision]

/-- `ORDER BY path_hash,... LIMIT 4097` -/
def scanRows (rows : List AclRow) : List AclRow :=
  (rows.insertionSort fun a b => a.key ≤ b.key).take 4097

/-- The texts of a digest, one after the other. -/
def frame (texts : List Name) : Name := texts.flatMap fun text => text ++ [nul]

/-- The texts of one library. -/
def scopeTexts (repoId : Name) (rows : List AclRow) : List Name :=
  repoId :: rows.flatMap AclRow.columns

/-- The tables of rules: that of the library, and that of its origin. -/
inductive Scope where
  | library
  | origin
deriving DecidableEq

/-- What the statements of a proof return: the rows of a scope, and the origin of the library, if
    it is a virtual one. -/
structure ProofReads where
  rows : Scope → Option (List AclRow)
  origin : Option (Option Name)

variable {H : Type}

namespace Server

/-- `proof_repo`: the texts, and whether there are rules. -/
def proofRepo (repoId : Name) (rows : Option (List AclRow)) : Option (List Name × Bool) :=
  rows >>= fun rows =>
    if 4096 < rows.length then none else some (scopeTexts repoId rows, rows ≠ [])

/-- The C server's proof of the rules it read. -/
def cfV2AclProof (sha256 : Name → H) (repoId : Name) (reads : ProofReads) : Option (AclProof H) :=
  if repoId.length ≠ 36 then none
  else proofRepo repoId (reads.rows .library) >>= fun library => reads.origin >>= fun
    | none => some ⟨sha256 (frame library.1), library.2⟩
    | some origin =>
      if origin.length ≠ 36 || origin = repoId then none
      else (proofRepo origin (reads.rows .origin)).map fun o =>
        ⟨sha256 (frame (library.1 ++ o.1)), library.2 || o.2⟩

end Server

namespace Fileserver

/-- The texts of the libraries, in order. -/
def proofScopes (reads : ProofReads) :
    List (Name × Scope) → List Name × Bool → Option (List Name × Bool)
  | [], done => some done
  | (repoID, scope) :: scopes, done => reads.rows scope >>= fun rows =>
    if 4096 < rows.length then none
    else proofScopes reads scopes (done.1 ++ scopeTexts repoID rows, done.2 || rows ≠ [])

/-- The texts of a library and its origin. -/
def readScopes (repoID : Name) (reads : ProofReads) : Option (List Name × Bool) :=
  if repoID.length ≠ 36 then none
  else reads.origin >>= fun
    | none => proofScopes reads [(repoID, .library)] ([], false)
    | some origin =>
      if origin.length ≠ 36 || origin = repoID then none
      else proofScopes reads [(repoID, .library), (origin, .origin)] ([], false)

/-- The fileserver's proof. -/
def cfACLCurrentProof (sha256 : Name → H) (repoID : Name) (reads : ProofReads) :
    Except AclErr (AclProof H) :=
  match readScopes repoID reads with
  | none => .error .unavailable
  | some (texts, isProtected) => .ok ⟨sha256 (frame texts), isProtected⟩

/-- The proof is still the expected one. -/
def cfACLFinal [DecidableEq H] (sha256 : Name → H) (repoID : Name) (reads : ProofReads)
    (expected : AclProof H) : Except AclErr Unit :=
  match cfACLCurrentProof sha256 repoID reads with
  | .error e => .error e
  | .ok current => if current.hash ≠ expected.hash then .error .denied else .ok ()

/-- `cfEditPermissionPreflight`, with the proof it has read. -/
def cfEditPermissionPreflight (hub : Hub) (repoID user filePath : Name)
    (proof : Except AclErr (AclProof H)) : Except AclErr (AclProof H) :=
  aclDecide hub (if user = [] || !cfACLCanonical filePath then none
    else some ⟨repoID, user, [⟨filePath, .file, .write⟩]⟩) proof

end Fileserver

/-! ## What both servers compute -/

/-- The library has this scope. -/
def InScope (origin : Option Name) (sc : Scope) : Prop := sc = .library ∨ origin.isSome = true

/-- The texts of the rules. -/
def proofTexts (repoId : Name) (origin : Option Name) (rows : Scope → List AclRow) : List Name :=
  scopeTexts repoId (rows .library) ++ origin.elim [] fun o => scopeTexts o (rows .origin)

/-- The proof is of these rules. -/
structure Proves (sha256 : Name → H) (repoId : Name) (reads : ProofReads) (origin : Option Name)
    (rows : Scope → List AclRow) (p : AclProof H) : Prop where
  readOrigin : reads.origin = some origin
  originLength : ∀ o, origin = some o → o.length = 36
  readRows : ∀ sc, InScope origin sc → reads.rows sc = some (rows sc) ∧ (rows sc).length ≤ 4096
  hash : p.hash = sha256 (frame (proofTexts repoId origin rows))
  isProtected : p.isProtected = true ↔ ∃ sc, InScope origin sc ∧ rows sc ≠ []

variable {sha256 : Name → H} {repoId : Name} {reads : ProofReads} {p : AclProof H}
  {rows : Scope → List AclRow}

theorem Server.proofRepo_some {rows : Option (List AclRow)} {r : List Name × Bool} :
    Server.proofRepo repoId rows = some r ↔
      ∃ l, rows = some l ∧ l.length ≤ 4096 ∧ r = (scopeTexts repoId l, decide (l ≠ [])) := by
  simp only [proofRepo, bind_eq_bind, bind_eq_some_iff,
    ite_none_left_eq_some, Option.some.injEq, not_lt]
  constructor
  · rintro ⟨l, hl, hle, rfl⟩
    exact ⟨l, hl, hle, rfl⟩
  · rintro ⟨l, hl, hle, rfl⟩
    exact ⟨l, hl, hle, rfl⟩

theorem proves_library (horigin : reads.origin = some none)
    (hrows : reads.rows .library = some (rows .library)) (hle : (rows .library).length ≤ 4096) :
    Proves sha256 repoId reads none rows
      ⟨sha256 (frame (scopeTexts repoId (rows .library))), decide (rows .library ≠ [])⟩ where
  readOrigin := horigin
  originLength := nofun
  readRows sc hsc := by
    obtain rfl : sc = .library := hsc.resolve_right (by simp)
    exact ⟨hrows, hle⟩
  hash := by simp [proofTexts]
  isProtected := by
    rw [decide_eq_true_eq]
    constructor
    · intro hne
      exact ⟨.library, .inl rfl, hne⟩
    · rintro ⟨sc, hsc, hne⟩
      obtain rfl : sc = .library := hsc.resolve_right (by simp)
      exact hne

theorem proves_origin {o : Name} (horigin : reads.origin = some (some o)) (ho : o.length = 36)
    (hl : reads.rows .library = some (rows .library)) (hle : (rows .library).length ≤ 4096)
    (hl' : reads.rows .origin = some (rows .origin)) (hle' : (rows .origin).length ≤ 4096) :
    Proves sha256 repoId reads (some o) rows
      ⟨sha256 (frame (scopeTexts repoId (rows .library) ++ scopeTexts o (rows .origin))),
        decide (rows .library ≠ []) || decide (rows .origin ≠ [])⟩ where
  readOrigin := horigin
  originLength o' ho' := by rwa [← Option.some.inj ho']
  readRows sc _ := by
    cases sc with
    | library => exact ⟨hl, hle⟩
    | origin => exact ⟨hl', hle'⟩
  hash := rfl
  isProtected := by
    rw [Bool.or_eq_true, decide_eq_true_eq, decide_eq_true_eq]
    constructor
    · rintro (hne | hne)
      · exact ⟨.library, .inl rfl, hne⟩
      · exact ⟨.origin, .inr rfl, hne⟩
    · rintro ⟨sc, -, hne⟩
      cases sc with
      | library => exact .inl hne
      | origin => exact .inr hne

/-- The rules that were read. -/
def ProofReads.got (reads : ProofReads) (sc : Scope) : List AclRow := (reads.rows sc).getD []

theorem ProofReads.got_eq {sc : Scope} {l : List AclRow} (h : reads.rows sc = some l) :
    reads.got sc = l := by
  rw [ProofReads.got, h, getD_some]

theorem Server.cfV2AclProof_proves (h : Server.cfV2AclProof sha256 repoId reads = some p) :
    ∃ origin, Proves sha256 repoId reads origin reads.got p := by
  unfold cfV2AclProof at h
  split_ifs at h
  simp only [bind_eq_bind, bind_eq_some_iff] at h
  obtain ⟨library, hlib, origin, horigin, h⟩ := h
  obtain ⟨l, hl, hle, rfl⟩ := proofRepo_some.1 hlib
  obtain rfl := ProofReads.got_eq hl
  cases origin with
  | none =>
    cases h
    exact ⟨none, proves_library horigin hl hle⟩
  | some o =>
    simp only at h
    split_ifs at h with ho
    simp only [Bool.or_eq_true, decide_eq_true_eq, ne_eq, not_or, not_not] at ho
    obtain ⟨r, hr, rfl⟩ := map_eq_some_iff.1 h
    obtain ⟨l', hl', hle', rfl⟩ := proofRepo_some.1 hr
    obtain rfl := ProofReads.got_eq hl'
    exact ⟨some o, proves_origin horigin ho.1 hl hle hl' hle'⟩

theorem Fileserver.cfACLCurrentProof_proves
    (h : Fileserver.cfACLCurrentProof sha256 repoId reads = .ok p) :
    ∃ origin, Proves sha256 repoId reads origin reads.got p := by
  unfold cfACLCurrentProof at h
  cases hs : readScopes repoId reads with
  | none => simp [hs] at h
  | some r =>
    obtain ⟨texts, isProtected⟩ := r
    simp only [hs, Except.ok.injEq] at h
    subst h
    unfold readScopes at hs
    split_ifs at hs
    simp only [bind_eq_bind, bind_eq_some_iff] at hs
    obtain ⟨origin, horigin, hs⟩ := hs
    cases origin with
    | none =>
      simp only [proofScopes, bind_eq_bind, bind_eq_some_iff,
        ite_none_left_eq_some, not_lt, nil_append, Bool.false_or, Option.some.injEq,
        Prod.mk.injEq] at hs
      obtain ⟨l, hl, hle, rfl, rfl⟩ := hs
      obtain rfl := ProofReads.got_eq hl
      exact ⟨none, proves_library horigin hl hle⟩
    | some o =>
      simp only at hs
      split_ifs at hs with ho
      simp only [Bool.or_eq_true, decide_eq_true_eq, ne_eq, not_or, not_not] at ho
      simp only [proofScopes, bind_eq_bind, bind_eq_some_iff,
        ite_none_left_eq_some, not_lt, nil_append, Bool.false_or, Option.some.injEq,
        Prod.mk.injEq] at hs
      obtain ⟨l, hl, hle, l', hl', hle', rfl, rfl⟩ := hs
      obtain rfl := ProofReads.got_eq hl
      obtain rfl := ProofReads.got_eq hl'
      exact ⟨some o, proves_origin horigin ho.1 hl hle hl' hle'⟩

theorem Fileserver.cfACLFinal_ok [DecidableEq H] {u : Unit}
    (h : Fileserver.cfACLFinal sha256 repoId reads p = .ok u) :
    ∃ p', Fileserver.cfACLCurrentProof sha256 repoId reads = .ok p' ∧ p'.hash = p.hash := by
  unfold cfACLFinal at h
  cases hproof : cfACLCurrentProof sha256 repoId reads with
  | error e => simp [hproof] at h
  | ok p' =>
    simp only [hproof] at h
    split_ifs at h with hne
    exact ⟨p', rfl, not_not.1 hne⟩

/-! ## Equal proofs are of the same rows -/

theorem eq_of_append_nul {t t' a b : Name} (ht : nul ∉ t) (ht' : nul ∉ t')
    (h : t ++ nul :: a = t' ++ nul :: b) : t = t' ∧ a = b := by
  induction t generalizing t' with
  | nil =>
    cases t' with
    | nil => exact ⟨rfl, (List.cons.inj h).2⟩
    | cons c t' =>
      rw [← (List.cons.inj h).1] at ht'
      exact absurd mem_cons_self ht'
  | cons c t ih =>
    cases t' with
    | nil =>
      rw [(List.cons.inj h).1] at ht
      exact absurd mem_cons_self ht
    | cons c' t' =>
      obtain ⟨rfl, htail⟩ := List.cons.inj h
      obtain ⟨rfl, hrest⟩ := ih (fun hm => ht (mem_cons_of_mem _ hm))
        (fun hm => ht' (mem_cons_of_mem _ hm)) htail
      exact ⟨rfl, hrest⟩

theorem frame_injective {a b : List Name} (ha : ∀ t ∈ a, nul ∉ t) (hb : ∀ t ∈ b, nul ∉ t)
    (h : frame a = frame b) : a = b := by
  induction a generalizing b with
  | nil =>
    cases b with
    | nil => rfl
    | cons t b => simp [frame] at h
  | cons t a ih =>
    cases b with
    | nil => simp [frame] at h
    | cons t' b =>
      rw [forall_mem_cons] at ha hb
      simp only [frame, flatMap_cons, append_assoc, singleton_append] at h
      -- both texts end at the first NUL
      obtain ⟨rfl, hrest⟩ := eq_of_append_nul ha.1 hb.1 h
      rw [ih ha.2 hb.2 hrest]

theorem columns_injective {r r' : AclRow} (h : r.columns = r'.columns) : r = r' := by
  cases r
  cases r'
  simp only [AclRow.columns, AclRow.key, cons_append, nil_append, List.cons.injEq,
    and_true] at h
  simp [h]

theorem rows_eq_of_columns {rows rows' : List AclRow} {rest rest' : List Name}
    (hrest : ∀ t ∈ rest.head?, t.length = 36) (hrest' : ∀ t ∈ rest'.head?, t.length = 36)
    (h : rows.flatMap AclRow.columns ++ rest = rows'.flatMap AclRow.columns ++ rest') :
    rows = rows' ∧ rest = rest' := by
  induction rows generalizing rows' with
  | nil =>
    cases rows' with
    | nil => exact ⟨rfl, h⟩
    | cons r rows' =>
      have hlen := hrest r.pathHash (by rw [show rest = _ from h]; rfl)
      rw [r.hex.1] at hlen
      omega
  | cons r rows ih =>
    cases rows' with
    | nil =>
      have hlen := hrest' r.pathHash (by rw [show rest' = _ from h.symm]; rfl)
      rw [r.hex.1] at hlen
      omega
    | cons r' rows' =>
      rw [flatMap_cons, flatMap_cons, append_assoc, append_assoc] at h
      obtain ⟨hcols, htail⟩ := append_inj h rfl
      obtain ⟨rfl, hrest⟩ := ih htail
      exact ⟨by rw [columns_injective hcols], hrest⟩

theorem nul_notMem_scopeTexts {rows : List AclRow} (hrepo : nul ∉ repoId) :
    ∀ t ∈ scopeTexts repoId rows, nul ∉ t := by
  rw [scopeTexts, forall_mem_cons]
  refine ⟨hrepo, fun t ht => ?_⟩
  obtain ⟨r, -, hr⟩ := mem_flatMap.1 ht
  exact r.noNul t hr

variable {origin : Option Name} {rows' : Scope → List AclRow}

theorem nul_notMem_proofTexts (hrepo : nul ∉ repoId) (horigin : ∀ o, origin = some o → nul ∉ o) :
    ∀ t ∈ proofTexts repoId origin rows, nul ∉ t := by
  rw [proofTexts, forall_mem_append]
  refine ⟨nul_notMem_scopeTexts hrepo, ?_⟩
  cases origin with
  | none => exact nofun
  | some o => exact nul_notMem_scopeTexts (horigin o rfl)

theorem rows_eq_of_proofTexts (hlen : ∀ o, origin = some o → o.length = 36)
    (h : proofTexts repoId origin rows = proofTexts repoId origin rows') :
    ∀ sc, InScope origin sc → rows sc = rows' sc := by
  have htail := (List.cons.inj h).2
  have hnil : ∀ t ∈ ([] : List Name).head?, t.length = 36 := nofun
  cases origin with
  | none =>
    obtain ⟨hrows, -⟩ := rows_eq_of_columns hnil hnil htail
    intro sc hsc
    obtain rfl : sc = .library := hsc.resolve_right (by simp)
    exact hrows
  | some o =>
    have hhead : ∀ l : List Name, ∀ t ∈ (o :: l).head?, t.length = 36 := by
      intro l t ht
      cases ht
      exact hlen o rfl
    obtain ⟨hrows, hrest⟩ := rows_eq_of_columns (hhead _) (hhead _) htail
    have hcols := (List.cons.inj hrest).2
    rw [← append_nil (flatMap _ (rows .origin)),
      ← append_nil (flatMap _ (rows' .origin))] at hcols
    obtain ⟨horigin, -⟩ := rows_eq_of_columns hnil hnil hcols
    intro sc _
    cases sc with
    | library => exact hrows
    | origin => exact horigin

/-- **Equal proofs are of the same rows.** -/
theorem Proves.rows_eq {reads' : ProofReads} {p' : AclProof H}
    (hsha : Function.Injective sha256) (hrepo : nul ∉ repoId)
    (horigin : ∀ o, origin = some o → nul ∉ o) (h : Proves sha256 repoId reads origin rows p)
    (h' : Proves sha256 repoId reads' origin rows' p') (heq : p.hash = p'.hash) :
    ∀ sc, InScope origin sc → rows sc = rows' sc := by
  rw [h.hash, h'.hash] at heq
  refine rows_eq_of_proofTexts h.originLength (frame_injective ?_ ?_ (hsha heq))
  · exact nul_notMem_proofTexts hrepo horigin
  · exact nul_notMem_proofTexts hrepo horigin

end CloudFile
