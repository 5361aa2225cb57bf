/-
  What a publication carries over from the head it replaces (`fileserver/repomgr/repomgr.go`,
  `fileserver/commitmgr/commitmgr.go`, `common/commit-mgr.c`, `server/repo-mgr.c`). A library has
  no record of its metadata but its head commit. The file server drops the description and the
  local-history flag; and a commit is not written if there is one with its id.
-/
import CloudFile.Fs.Object
import CloudFile.Sync.Uploads

namespace CloudFile

open List Option

variable {Id : Type}

/-! ## The commit object -/

/-- The members of a stored commit object that a publication reads back; `none` is a member that
    is not there. -/
structure CommitObject (Id : Type) where
  rootId : Id
  creatorName : Option Name
  description : Option Name
  ctime : ℤ
  parentId : Option Id
  repoName : Option Name
  repoDesc : Option Name
  encrypted : Option Name
  encVersion : Option ℤ
  magic : Option Bytes
  key : Option Bytes
  salt : Option Bytes
  pwdHash : Option Bytes
  pwdHashAlgo : Option Name
  pwdHashParams : Option Name
  noLocalHistory : Option ℤ
  version : Option ℤ
  repaired : Option ℤ
deriving DecidableEq

/-- A 64-bit integer of the JSON library stored in an `int`. -/
def cInt (v : ℤ) : ℤ := v.bmod 4294967296

theorem cInt_eq_self {v : ℤ} (h : -2147483648 ≤ v ∧ v < 2147483648) : cInt v = v := by
  exact Int.bmod_eq_of_le (by omega) (by omega)

/-- `omitempty` of a text -/
def omitEmpty {α : Type} : List α → Option (List α)
  | [] => none
  | a :: as => some (a :: as)

/-- `omitempty` of an integer -/
def omitZero (v : ℤ) : Option ℤ := if v = 0 then none else some v

variable {α : Type}

@[simp] theorem omitEmpty_nil : omitEmpty ([] : List α) = none := rfl

@[simp] theorem omitEmpty_cons (a : α) (as : List α) :
    omitEmpty (a :: as) = some (a :: as) := rfl

variable {as : List α} {n : ℕ}

theorem omitEmpty_eq_some_iff {bs : List α} :
    omitEmpty as = some bs ↔ as = bs ∧ bs ≠ [] := by
  cases as with
  | nil =>
    constructor
    · intro h
      cases h
    · rintro ⟨rfl, h⟩
      exact absurd rfl h
  | cons a as =>
    rw [omitEmpty_cons, some_inj]
    constructor
    · rintro rfl
      exact ⟨rfl, cons_ne_nil a as⟩
    · exact And.left

theorem omitEmpty_eq_none_iff : omitEmpty as = none ↔ as = [] := by
  cases as with
  | nil => exact iff_of_true rfl rfl
  | cons a as => exact iff_of_false (some_ne_none _) (cons_ne_nil a as)

theorem omitEmpty_of_length (h : as.length = n + 1) :
    omitEmpty as = some as :=
  omitEmpty_eq_some_iff.2 ⟨rfl, ne_nil_of_length_eq_add_one h⟩

@[simp] theorem getD_omitEmpty (as : List α) : (omitEmpty as).getD [] = as := by
  cases as <;> rfl

@[simp] theorem getD_omitZero (v : ℤ) : (omitZero v).getD 0 = v := by
  unfold omitZero
  split_ifs with h
  · exact h.symm
  · rfl

/-! ## The file server -/

namespace Fileserver

/-- `commitmgr.Commit` -/
structure CommitRec (Id : Type) where
  rootID : Id
  creatorName : Name
  desc : Name
  ctime : ℤ
  parentID : Option Id
  repoName : Name := []
  repoDesc : Name := []
  encrypted : Name := []
  encVersion : ℤ := 0
  magic : Bytes := []
  randomKey : Bytes := []
  salt : Bytes := []
  pwdHash : Bytes := []
  pwdHashAlgo : Name := []
  pwdHashParams : Name := []
  version : ℤ := 0
  repaired : ℤ := 0

/-- `repomgr.Repo` -/
structure RepoRec (Id : Type) where
  name : Name
  desc : Name
  lastModifier : Name
  lastModificationTime : ℤ
  headCommitID : Id
  rootID : Id
  isEncrypted : Bool := false
  encVersion : ℤ := 0
  magic : Bytes := []
  randomKey : Bytes := []
  salt : Bytes := []
  pwdHash : Bytes := []
  pwdHashAlgo : Name := []
  pwdHashParams : Name := []
  version : ℤ

/-- `FromData`: a member that is not there leaves the zero value. -/
def fromData (o : CommitObject Id) : CommitRec Id where
  rootID := o.rootId
  creatorName := o.creatorName.getD []
  desc := o.description.getD []
  ctime := o.ctime
  parentID := o.parentId
  repoName := o.repoName.getD []
  repoDesc := o.repoDesc.getD []
  encrypted := o.encrypted.getD []
  encVersion := o.encVersion.getD 0
  magic := o.magic.getD []
  randomKey := o.key.getD []
  salt := o.salt.getD []
  pwdHash := o.pwdHash.getD []
  pwdHashAlgo := o.pwdHashAlgo.getD []
  pwdHashParams := o.pwdHashParams.getD []
  version := o.version.getD 0
  repaired := o.repaired.getD 0

/-- A commit as its object. -/
def toData (commit : CommitRec Id) : CommitObject Id where
  rootId := commit.rootID
  creatorName := omitEmpty commit.creatorName
  description := some commit.desc
  ctime := commit.ctime
  parentId := commit.parentID
  repoName := some commit.repoName
  repoDesc := some commit.repoDesc
  encrypted := omitEmpty commit.encrypted
  encVersion := omitZero commit.encVersion
  magic := omitEmpty commit.magic
  key := omitEmpty commit.randomKey
  salt := omitEmpty commit.salt
  pwdHash := omitEmpty commit.pwdHash
  pwdHashAlgo := omitEmpty commit.pwdHashAlgo
  pwdHashParams := omitEmpty commit.pwdHashParams
  noLocalHistory := none
  version := omitZero commit.version
  repaired := omitZero commit.repaired

/-- `Get`, from the head commit on -/
def get (headCommitID : Id) (commit : CommitRec Id) : RepoRec Id :=
  let repo : RepoRec Id :=
    { name := commit.repoName
      desc := commit.repoDesc
      lastModifier := commit.creatorName
      lastModificationTime := commit.ctime
      headCommitID := headCommitID
      rootID := commit.rootID
      version := commit.version }
  if commit.encrypted = "true".toList then
    let repo := { repo with isEncrypted := true, encVersion := commit.encVersion }
    let repo :=
      if repo.encVersion = 1 ∧ commit.pwdHash = [] then { repo with magic := commit.magic }
      else if repo.encVersion = 2 then { repo with randomKey := commit.randomKey }
      else if repo.encVersion = 3 then
        { repo with randomKey := commit.randomKey, salt := commit.salt }
      else if repo.encVersion = 4 then
        { repo with randomKey := commit.randomKey, salt := commit.salt }
      else repo
    let repo :=
      if 2 ≤ repo.encVersion ∧ commit.pwdHash = [] then { repo with magic := commit.magic }
      else repo
    if commit.pwdHash ≠ [] then
      { repo with
        pwdHash := commit.pwdHash
        pwdHashAlgo := commit.pwdHashAlgo
        pwdHashParams := commit.pwdHashParams }
    else repo
  else repo

/-- `NewCommit` -/
def newCommitRec (parentID newRoot : Id) (user desc : Name) (now : ℤ) : CommitRec Id where
  rootID := newRoot
  creatorName := user
  desc := desc
  ctime := now
  parentID := some parentID

/-- The metadata of the library, in a commit. -/
def repoToCommit (repo : RepoRec Id) (commit : CommitRec Id) : CommitRec Id :=
  let commit := { commit with repoName := repo.name }
  let commit :=
    if repo.isEncrypted then
      let commit := { commit with encrypted := "true".toList, encVersion := repo.encVersion }
      let commit :=
        if repo.encVersion = 1 ∧ repo.pwdHash = [] then { commit with magic := repo.magic }
        else if repo.encVersion = 2 then { commit with randomKey := repo.randomKey }
        else if repo.encVersion = 3 then
          { commit with randomKey := repo.randomKey, salt := repo.salt }
        else if repo.encVersion = 4 then
          { commit with randomKey := repo.randomKey, salt := repo.salt }
        else commit
      let commit :=
        if 2 ≤ repo.encVersion ∧ repo.pwdHash = [] then { commit with magic := repo.magic }
        else commit
      if repo.pwdHash ≠ [] then
        { commit with
          pwdHash := repo.pwdHash
          pwdHashAlgo := repo.pwdHashAlgo
          pwdHashParams := repo.pwdHashParams }
      else commit
    else { commit with encrypted := "false".toList }
  { commit with version := repo.version }

/-- The commit object that a publication over the head `o` saves. -/
def nextObject (head : Id) (o : CommitObject Id) (newRoot : Id) (user desc : Name) (now : ℤ) :
    CommitObject Id :=
  let repo := get head (fromData o)
  toData (repoToCommit repo (newCommitRec repo.headCommitID newRoot user desc now))

end Fileserver

/-! ## seaf-server -/

namespace Server

/-- `SeafCommit`: `none` is a null pointer. -/
structure SeafCommit (Id : Type) where
  rootId : Id
  creatorName : Option Name
  desc : Name
  ctime : ℤ
  parentId : Option Id
  repoName : Option Name := none
  repoDesc : Option Name := none
  encrypted : Bool := false
  encVersion : ℤ := 0
  magic : Option Bytes := none
  randomKey : Option Bytes := none
  salt : Option Bytes := none
  pwdHash : Option Bytes := none
  pwdHashAlgo : Option Name := none
  pwdHashParams : Option Name := none
  noLocalHistory : Bool := false
  version : ℤ := 0
  repaired : Bool := false

/-- `SeafRepo`: the keys are zeroed arrays in the record itself. -/
structure SeafRepo (Id : Type) where
  name : Option Name
  desc : Option Name
  rootId : Id
  lastModifier : Option Name
  lastModify : ℤ
  encrypted : Bool
  repaired : Bool
  encVersion : ℤ := 0
  magic : Bytes := []
  randomKey : Bytes := []
  salt : Bytes := []
  pwdHash : Bytes := []
  pwdHashAlgo : Option Name := none
  pwdHashParams : Option Name := none
  noLocalHistory : Bool := false
  version : ℤ := 0

/-- Whether a text is there and has a length. -/
def hasLength (text : Option Bytes) (n : ℕ) : Bool := text.any fun t => t.length = n

/-- The checks of `commit_from_json_object` by encryption version. -/
def encryptionSane (encVersion : ℤ) (magic randomKey salt : Option Bytes) : Bool :=
  if encVersion = 0 then true
  else if encVersion = 1 then hasLength magic 32
  else if encVersion = 2 then hasLength magic 64 && hasLength randomKey 96
  else if encVersion = 3 then hasLength magic 64 && hasLength randomKey 96 && hasLength salt 64
  else if encVersion = 4 then hasLength magic 64 && hasLength randomKey 96 && hasLength salt 64
  else false

/-- A commit from its object. -/
def commitFromJsonObject (o : CommitObject Id) : Option (SeafCommit Id) :=
  let encrypted := decide (o.encrypted = some "true".toList)
  let known := encrypted && o.encVersion.isSome
  let encVersion := if known then cInt (o.encVersion.getD 0) else 0
  let magic := if known then o.magic else none
  let pwdHash := if known then o.pwdHash else none
  let pwdHashAlgo := if known then o.pwdHashAlgo else none
  let pwdHashParams := if known then o.pwdHashParams else none
  let randomKey := if 2 ≤ encVersion then o.key else none
  let salt := if 3 ≤ encVersion then o.salt else none
  -- what stands for the magic in the checks
  let magic := magic.or pwdHash
  if encryptionSane encVersion magic randomKey salt then
    some
      { rootId := o.rootId
        creatorName := o.creatorName.map fun name => name.map Char.toLower
        desc := o.description.getD []
        ctime := o.ctime
        parentId := o.parentId
        repoName := some (o.repoName.getD [])
        repoDesc := some (o.repoDesc.getD [])
        encrypted := encrypted
        encVersion := if encrypted then encVersion else 0
        magic := if encrypted ∧ 1 ≤ encVersion ∧ pwdHash = none then magic else none
        randomKey := if encrypted ∧ 2 ≤ encVersion then randomKey else none
        salt := if encrypted ∧ 3 ≤ encVersion then salt else none
        pwdHash := if encrypted then pwdHash else none
        pwdHashAlgo := if encrypted ∧ pwdHash ≠ none then pwdHashAlgo else none
        pwdHashParams := if encrypted ∧ pwdHash ≠ none then pwdHashParams else none
        noLocalHistory := decide (cInt (o.noLocalHistory.getD 0) ≠ 0)
        version := cInt (o.version.getD 0)
        repaired := decide (cInt (o.repaired.getD 0) ≠ 0) }
  else none

/-- `commit_to_json_object`: `json_string` of a null pointer sets no member. -/
def commitToJsonObject (commit : SeafCommit Id) : CommitObject Id where
  rootId := commit.rootId
  creatorName := commit.creatorName
  description := some commit.desc
  ctime := commit.ctime
  parentId := commit.parentId
  repoName := commit.repoName
  repoDesc := commit.repoDesc
  encrypted := if commit.encrypted then some "true".toList else none
  encVersion := if commit.encrypted then some commit.encVersion else none
  magic :=
    if commit.encrypted ∧ 1 ≤ commit.encVersion ∧ commit.pwdHash = none then commit.magic else none
  key := if commit.encrypted ∧ 2 ≤ commit.encVersion then commit.randomKey else none
  salt := if commit.encrypted ∧ 3 ≤ commit.encVersion then commit.salt else none
  pwdHash := if commit.encrypted then commit.pwdHash else none
  pwdHashAlgo := if commit.encrypted ∧ commit.pwdHash ≠ none then commit.pwdHashAlgo else none
  pwdHashParams := if commit.encrypted ∧ commit.pwdHash ≠ none then commit.pwdHashParams else none
  noLocalHistory := if commit.noLocalHistory then some 1 else none
  version := omitZero commit.version
  repaired := if commit.repaired then some 1 else none

/-- `memcpy` of `n` characters into a zeroed array; a null pointer ends the server. -/
def memcpy (text : Option Bytes) (n : ℕ) : Option Bytes := text.map (List.take n)

/-- The library, from a commit. -/
def seafRepoFromCommit (commit : SeafCommit Id) : Option (SeafRepo Id) := do
  let repo : SeafRepo Id :=
    { name := commit.repoName
      desc := commit.repoDesc
      encrypted := commit.encrypted
      repaired := commit.repaired
      lastModify := commit.ctime
      rootId := commit.rootId
      lastModifier := commit.creatorName
      noLocalHistory := commit.noLocalHistory
      version := commit.version }
  if repo.encrypted then
    let repo := { repo with encVersion := commit.encVersion }
    let repo ←
      if repo.encVersion = 1 ∧ commit.pwdHashAlgo = none then
        (memcpy commit.magic 32).map fun magic => { repo with magic := magic }
      else if repo.encVersion = 2 then
        (memcpy commit.randomKey 96).map fun key => { repo with randomKey := key }
      else if repo.encVersion = 3 then
        (memcpy commit.randomKey 96).bind fun key => (memcpy commit.salt 64).map fun salt =>
          { repo with randomKey := key, salt := salt }
      else if repo.encVersion = 4 then
        (memcpy commit.randomKey 96).bind fun key => (memcpy commit.salt 64).map fun salt =>
          { repo with randomKey := key, salt := salt }
      else some repo
    let repo ←
      if 2 ≤ repo.encVersion ∧ commit.pwdHashAlgo = none then
        (memcpy commit.magic 64).map fun magic => { repo with magic := magic }
      else some repo
    if commit.pwdHashAlgo ≠ none then
      (memcpy commit.pwdHash 64).map fun hash =>
        { repo with
          pwdHash := hash
          pwdHashAlgo := commit.pwdHashAlgo
          pwdHashParams := commit.pwdHashParams }
    else some repo
  else some repo

/-- `seaf_commit_new`, and the parent that its callers set -/
def seafCommitNew (parentId newRoot : Id) (user desc : Name) (now : ℤ) : SeafCommit Id where
  rootId := newRoot
  creatorName := some user
  desc := desc
  ctime := now
  parentId := some parentId

/-- The metadata of the library, in a commit. -/
def seafRepoToCommit (repo : SeafRepo Id) (commit : SeafCommit Id) : SeafCommit Id :=
  let commit :=
    { commit with
      repoName := repo.name
      repoDesc := repo.desc
      encrypted := repo.encrypted
      repaired := repo.repaired }
  let commit :=
    if commit.encrypted then
      let commit := { commit with encVersion := repo.encVersion }
      let commit :=
        if commit.encVersion = 1 ∧ repo.pwdHashAlgo = none then
          { commit with magic := some repo.magic }
        else if commit.encVersion = 2 then { commit with randomKey := some repo.randomKey }
        else if commit.encVersion = 3 then
          { commit with randomKey := some repo.randomKey, salt := some repo.salt }
        else if commit.encVersion = 4 then
          { commit with randomKey := some repo.randomKey, salt := some repo.salt }
        else commit
      let commit :=
        if 2 ≤ commit.encVersion ∧ repo.pwdHashAlgo = none then
          { commit with magic := some repo.magic }
        else commit
      if repo.pwdHashAlgo ≠ none then
        { commit with
          pwdHash := some repo.pwdHash
          pwdHashAlgo := repo.pwdHashAlgo
          pwdHashParams := repo.pwdHashParams }
      else commit
    else commit
  { commit with noLocalHistory := repo.noLocalHistory, version := repo.version }

/-- The commit object that a publication over the head `o` saves. -/
def nextObject (head : Id) (o : CommitObject Id) (newRoot : Id) (user desc : Name) (now : ℤ) :
    Option (CommitObject Id) :=
  (commitFromJsonObject o).bind fun commit => (seafRepoFromCommit commit).map fun repo =>
    commitToJsonObject (seafRepoToCommit repo (seafCommitNew head newRoot user desc now))

end Server

/-! ## The metadata -/

/-- How a library is encrypted. -/
structure Encryption where
  version : ℤ
  magic : Option Bytes
  key : Option Bytes
  salt : Option Bytes
  pwdHash : Option Bytes
  pwdHashAlgo : Option Name
  pwdHashParams : Name
deriving DecidableEq

/-- What a commit object tells of its library. -/
@[ext] structure Metadata where
  name : Name
  desc : Name
  encryption : Option Encryption
  version : ℤ
  noLocalHistory : Bool
deriving DecidableEq

/-- Its encryption. -/
def CommitObject.encryption (o : CommitObject Id) : Encryption where
  version := o.encVersion.getD 0
  magic := o.magic
  key := o.key
  salt := o.salt
  pwdHash := o.pwdHash
  pwdHashAlgo := o.pwdHashAlgo
  pwdHashParams := o.pwdHashParams.getD []

/-- Its metadata. -/
def CommitObject.metadata (o : CommitObject Id) : Metadata where
  name := o.repoName.getD []
  desc := o.repoDesc.getD []
  encryption := if o.encrypted = some "true".toList then some o.encryption else none
  version := o.version.getD 0
  noLocalHistory := decide (cInt (o.noLocalHistory.getD 0) ≠ 0)

/-- The random key and the salt of an encryption version. -/
inductive Encryption.Keys : ℤ → Bytes → Option Bytes → Prop
  | second {key : Bytes} (hkey : key.length = 96) : Keys 2 key none
  | third {key salt : Bytes} (hkey : key.length = 96) (hsalt : salt.length = 64) :
      Keys 3 key (some salt)
  | fourth {key salt : Bytes} (hkey : key.length = 96) (hsalt : salt.length = 64) :
      Keys 4 key (some salt)

/-- The password is checked against the magic, or against a hash of it. The first version has
    neither keys nor a hash. -/
inductive Encryption.WellFormed : Encryption → Prop
  | first {magic : Bytes} (hmagic : magic.length = 32) :
      WellFormed ⟨1, some magic, none, none, none, none, []⟩
  | magic {v : ℤ} {key magic : Bytes} {salt : Option Bytes} (hkeys : Keys v key salt)
      (hmagic : magic.length = 64) : WellFormed ⟨v, some magic, some key, salt, none, none, []⟩
  | pwdHash {v : ℤ} {key hash : Bytes} {salt : Option Bytes} {algo params : Name}
      (hkeys : Keys v key salt) (hhash : hash.length = 64) (halgo : algo ≠ []) :
      WellFormed ⟨v, none, some key, salt, some hash, some algo, params⟩

/-- The metadata of a library: the format version is an `int`, and the keys are complete. -/
structure Metadata.WellFormed (m : Metadata) : Prop where
  version : -2147483648 ≤ m.version ∧ m.version < 2147483648
  encryption : ∀ e ∈ m.encryption, e.WellFormed

/-! ## What the translators carry -/

namespace Server

/-- Its encryption. -/
def SeafCommit.encryption (c : SeafCommit Id) : Encryption where
  version := c.encVersion
  magic := c.magic
  key := c.randomKey
  salt := c.salt
  pwdHash := c.pwdHash
  pwdHashAlgo := c.pwdHashAlgo
  pwdHashParams := c.pwdHashParams.getD []

/-- Its metadata. -/
def SeafCommit.metadata (c : SeafCommit Id) : Metadata where
  name := c.repoName.getD []
  desc := c.repoDesc.getD []
  encryption := if c.encrypted then some c.encryption else none
  version := c.version
  noLocalHistory := c.noLocalHistory

/-- Its encryption. -/
def SeafRepo.encryption (r : SeafRepo Id) : Encryption where
  version := r.encVersion
  magic := omitEmpty r.magic
  key := omitEmpty r.randomKey
  salt := omitEmpty r.salt
  pwdHash := omitEmpty r.pwdHash
  pwdHashAlgo := r.pwdHashAlgo
  pwdHashParams := r.pwdHashParams.getD []

/-- Its metadata. -/
def SeafRepo.metadata (r : SeafRepo Id) : Metadata where
  name := r.name.getD []
  desc := r.desc.getD []
  encryption := if r.encrypted then some r.encryption else none
  version := r.version
  noLocalHistory := r.noLocalHistory

end Server

theorem Encryption.Keys.version_le {v : ℤ} {key : Bytes} {salt : Option Bytes}
    (h : Keys v key salt) : 1 ≤ v ∧ v ≤ 4 := by
  cases h <;> omega

theorem Encryption.WellFormed.version_le {e : Encryption} (h : e.WellFormed) :
    1 ≤ e.version ∧ e.version ≤ 4 := by
  cases h with
  | first => exact ⟨le_rfl, show (1 : ℤ) ≤ 4 by omega⟩
  | magic hkeys => exact hkeys.version_le
  | pwdHash hkeys => exact hkeys.version_le

namespace Server

theorem memcpy_of_length {text : Bytes} (h : text.length = n) :
    memcpy (some text) n = some text := by
  rw [memcpy, map_some, take_of_length_le h.le]

theorem hasLength_of_length {text : Bytes} (h : text.length = n) :
    hasLength (some text) n = true := by
  rw [hasLength, any_some, decide_eq_true h]

variable {o : CommitObject Id} {c : SeafCommit Id}

theorem metadata_commitFromJsonObject (h : o.metadata.WellFormed) :
    ∃ c, commitFromJsonObject o = some c ∧ c.metadata = o.metadata := by
  have hversion : cInt (o.version.getD 0) = o.version.getD 0 := cInt_eq_self h.version
  by_cases henc : o.encrypted = some "true".toList
  · have he : o.encryption.WellFormed := h.encryption _ (by simp [CommitObject.metadata, henc])
    have hle := he.version_le
    have hcInt : cInt o.encryption.version = o.encryption.version := cInt_eq_self (by omega)
    have hknown : o.encVersion = some o.encryption.version := by
      simp only [CommitObject.encryption] at hle ⊢
      cases hv : o.encVersion with
      | none => rw [hv, getD_none] at hle; omega
      | some v => rw [getD_some]
    generalize ho : o.encryption = e at he hcInt hknown
    simp only [CommitObject.metadata, ho, henc]
    cases he with
    | first hmagic =>
      simp only [CommitObject.encryption, Encryption.mk.injEq] at ho hcInt hknown
      simp [commitFromJsonObject, SeafCommit.metadata, SeafCommit.encryption, encryptionSane,
        henc, ho, hcInt, hknown, hversion, hasLength_of_length hmagic]
    | magic hkeys hsecret | pwdHash hkeys hsecret =>
      simp only [CommitObject.encryption, Encryption.mk.injEq] at ho hcInt hknown
      cases hkeys <;>
        simp [commitFromJsonObject, SeafCommit.metadata, SeafCommit.encryption, encryptionSane,
          hasLength_of_length, *]
  · simp only [commitFromJsonObject, CommitObject.metadata, SeafCommit.metadata, henc,
      decide_false, Bool.false_and, Bool.false_eq_true, if_false, encryptionSane, hversion,
      if_true, Option.some.injEq, exists_eq_left', getD_some]

theorem metadata_seafRepoFromCommit (h : c.metadata.WellFormed) :
    ∃ r, seafRepoFromCommit c = some r ∧ r.metadata = c.metadata := by
  cases henc : c.encrypted with
  | false => simp [seafRepoFromCommit, SeafRepo.metadata, SeafCommit.metadata, henc]
  | true =>
    have he : c.encryption.WellFormed := h.encryption _ (by simp [SeafCommit.metadata, henc])
    generalize hc : c.encryption = e at he
    simp only [SeafCommit.metadata, hc]
    cases he with
    | first hmagic =>
      simp only [SeafCommit.encryption, Encryption.mk.injEq] at hc
      simp [seafRepoFromCommit, SeafRepo.metadata, SeafRepo.encryption, henc, hc,
        memcpy_of_length hmagic, omitEmpty_of_length hmagic]
    | magic hkeys hsecret | pwdHash hkeys hsecret =>
      simp only [SeafCommit.encryption, Encryption.mk.injEq] at hc
      cases hkeys <;>
        simp [seafRepoFromCommit, SeafRepo.metadata, SeafRepo.encryption, memcpy_of_length,
          omitEmpty_of_length, *]

theorem metadata_seafRepoToCommit {r : SeafRepo Id} (h : r.metadata.WellFormed)
    (parentId newRoot : Id) (user desc : Name) (now : ℤ) :
    (seafRepoToCommit r (seafCommitNew parentId newRoot user desc now)).metadata =
      r.metadata := by
  cases henc : r.encrypted with
  | false => simp [seafRepoToCommit, SeafRepo.metadata, SeafCommit.metadata, henc]
  | true =>
    have he : r.encryption.WellFormed := h.encryption _ (by simp [SeafRepo.metadata, henc])
    generalize hr : r.encryption = e at he
    simp only [SeafRepo.metadata, hr, henc]
    rcases he with _ | ⟨_ | _ | _, _⟩ | ⟨_ | _ | _, _⟩ <;>
    · simp only [SeafRepo.encryption, Encryption.mk.injEq, omitEmpty_eq_some_iff] at hr
      simp [seafRepoToCommit, seafCommitNew, SeafCommit.metadata, SeafCommit.encryption, henc, hr]

theorem metadata_commitToJsonObject (h : c.metadata.WellFormed) :
    (commitToJsonObject c).metadata = c.metadata := by
  have hflag : cInt ((if c.noLocalHistory then some 1 else none).getD 0) ≠ 0 ↔
      c.noLocalHistory = true := by
    cases c.noLocalHistory <;> decide
  cases henc : c.encrypted with
  | false => simp [commitToJsonObject, SeafCommit.metadata, CommitObject.metadata, henc, hflag]
  | true =>
    have he : c.encryption.WellFormed := h.encryption _ (by simp [SeafCommit.metadata, henc])
    generalize hc : c.encryption = e at he
    simp only [SeafCommit.metadata, hc, henc]
    rcases he with _ | ⟨_ | _ | _, _⟩ | ⟨_ | _ | _, _⟩ <;>
    · simp only [SeafCommit.encryption, Encryption.mk.injEq] at hc
      simp [commitToJsonObject, CommitObject.metadata, CommitObject.encryption, henc, hc, hflag]

theorem metadata_nextObject (h : o.metadata.WellFormed)
    (head newRoot : Id) (user desc : Name) (now : ℤ) :
    ∃ o', nextObject head o newRoot user desc now = some o' ∧ o'.metadata = o.metadata := by
  obtain ⟨c, hc, hcm⟩ := metadata_commitFromJsonObject h
  obtain ⟨r, hr, hrm⟩ := metadata_seafRepoFromCommit (hcm ▸ h)
  rw [hcm] at hrm
  have hto := metadata_seafRepoToCommit (hrm ▸ h) head newRoot user desc now
  rw [hrm] at hto
  refine ⟨_, by rw [nextObject, hc, bind_some, hr, map_some], ?_⟩
  rw [metadata_commitToJsonObject (hto ▸ h), hto]

end Server

namespace Fileserver

/-- Its encryption. -/
def CommitRec.encryption (c : CommitRec Id) : Encryption where
  version := c.encVersion
  magic := omitEmpty c.magic
  key := omitEmpty c.randomKey
  salt := omitEmpty c.salt
  pwdHash := omitEmpty c.pwdHash
  pwdHashAlgo := omitEmpty c.pwdHashAlgo
  pwdHashParams := c.pwdHashParams

/-- The record has no local-history flag. -/
def CommitRec.metadata (c : CommitRec Id) : Metadata where
  name := c.repoName
  desc := c.repoDesc
  encryption := if c.encrypted = "true".toList then some c.encryption else none
  version := c.version
  noLocalHistory := false

/-- Its encryption. -/
def RepoRec.encryption (r : RepoRec Id) : Encryption where
  version := r.encVersion
  magic := omitEmpty r.magic
  key := omitEmpty r.randomKey
  salt := omitEmpty r.salt
  pwdHash := omitEmpty r.pwdHash
  pwdHashAlgo := omitEmpty r.pwdHashAlgo
  pwdHashParams := r.pwdHashParams

/-- Its metadata. -/
def RepoRec.metadata (r : RepoRec Id) : Metadata where
  name := r.name
  desc := r.desc
  encryption := if r.isEncrypted then some r.encryption else none
  version := r.version
  noLocalHistory := false

theorem metadata_fromData {o : CommitObject Id} (h : o.metadata.WellFormed) :
    (fromData o).metadata = { o.metadata with noLocalHistory := false } := by
  by_cases henc : o.encrypted = some "true".toList
  · have he : o.encryption.WellFormed := h.encryption _ (by simp [CommitObject.metadata, henc])
    generalize ho : o.encryption = e at he
    simp only [CommitObject.metadata, ho, henc]
    cases he with
    | first hmagic =>
      simp only [CommitObject.encryption, Encryption.mk.injEq] at ho
      simp [fromData, CommitRec.metadata, CommitRec.encryption, henc, ho,
        omitEmpty_of_length hmagic]
    | magic hkeys | pwdHash hkeys =>
      simp only [CommitObject.encryption, Encryption.mk.injEq] at ho
      cases hkeys <;>
        simp [fromData, CommitRec.metadata, CommitRec.encryption, omitEmpty_of_length,
          omitEmpty_eq_some_iff, *]
  · have hget : o.encrypted.getD [] ≠ "true".toList := by
      cases hv : o.encrypted with
      | none => exact (cons_ne_nil _ _).symm
      | some text =>
        rintro rfl
        exact henc hv
    simp only [fromData, CommitRec.metadata, CommitObject.metadata, henc, hget, if_false]

theorem metadata_get {c : CommitRec Id} (h : c.metadata.WellFormed) (head : Id) :
    (get head c).metadata = c.metadata := by
  by_cases henc : c.encrypted = "true".toList
  · have he : c.encryption.WellFormed := h.encryption _ (by simp [CommitRec.metadata, henc])
    generalize hc : c.encryption = e at he
    simp only [CommitRec.metadata, hc, henc]
    rcases he with _ | ⟨_ | _ | _, _⟩ | ⟨_ | _ | _, _⟩ <;>
    · simp only [CommitRec.encryption, Encryption.mk.injEq, omitEmpty_eq_some_iff,
        omitEmpty_eq_none_iff] at hc
      simp [get, RepoRec.metadata, RepoRec.encryption, henc, hc, omitEmpty_eq_some_iff]
  · simp only [get, henc, if_false, RepoRec.metadata, CommitRec.metadata, Bool.false_eq_true]

theorem metadata_repoToCommit {r : RepoRec Id} (h : r.metadata.WellFormed)
    (parentID newRoot : Id) (user desc : Name) (now : ℤ) :
    (repoToCommit r (newCommitRec parentID newRoot user desc now)).metadata =
      { r.metadata with desc := [] } := by
  cases henc : r.isEncrypted with
  | false => simp [repoToCommit, newCommitRec, RepoRec.metadata, CommitRec.metadata, henc]
  | true =>
    have he : r.encryption.WellFormed := h.encryption _ (by simp [RepoRec.metadata, henc])
    generalize hr : r.encryption = e at he
    simp only [RepoRec.metadata, hr, henc]
    rcases he with _ | ⟨_ | _ | _, _⟩ | ⟨_ | _ | _, _⟩ <;>
    · simp only [RepoRec.encryption, Encryption.mk.injEq, omitEmpty_eq_some_iff,
        omitEmpty_eq_none_iff] at hr
      simp [repoToCommit, newCommitRec, CommitRec.metadata, CommitRec.encryption, henc, hr,
        omitEmpty_eq_some_iff]

theorem metadata_toData (c : CommitRec Id) : (toData c).metadata = c.metadata := by
  have henc : omitEmpty c.encrypted = some "true".toList ↔ c.encrypted = "true".toList := by
    rw [omitEmpty_eq_some_iff]
    exact and_iff_left (cons_ne_nil _ _)
  have hflag : cInt 0 = 0 := rfl
  simp only [toData, CommitObject.metadata, CommitObject.encryption, CommitRec.metadata,
    CommitRec.encryption, henc, hflag, getD_some, getD_none, getD_omitEmpty,
    getD_omitZero, ne_eq, not_true_eq_false, decide_false]

/-- The file server drops the description and the flag, and carries the rest over. -/
theorem metadata_nextObject {o : CommitObject Id} (h : o.metadata.WellFormed)
    (head newRoot : Id) (user desc : Name) (now : ℤ) :
    (nextObject head o newRoot user desc now).metadata =
      { o.metadata with desc := [], noLocalHistory := false } := by
  have hrec := metadata_fromData h
  have hget := metadata_get (c := fromData o) (hrec ▸ ⟨h.version, h.encryption⟩) head
  rw [hrec] at hget
  rw [nextObject, metadata_toData, metadata_repoToCommit (hget ▸ ⟨h.version, h.encryption⟩), hget]

end Fileserver

/-! ## Publications -/

/-- The commits of a library and its head. -/
structure LibraryState (Id : Type) where
  commits : Id → Option (CommitObject Id)
  head : Id

/-- What a publication writes: no rename, and no change of settings. -/
structure NewHead (Id : Type) where
  host : Host
  newRoot : Id
  user : Name
  desc : Name
  now : ℤ

/-- The object of the next commit. -/
def NewHead.nextObject (w : NewHead Id) (head : Id) (o : CommitObject Id) :
    Option (CommitObject Id) :=
  match w.host with
  | .fileserver => some (Fileserver.nextObject head o w.newRoot w.user w.desc w.now)
  | .server => Server.nextObject head o w.newRoot w.user w.desc w.now

namespace LibraryState

/-- The metadata of the head. -/
def metadata (lib : LibraryState Id) : Option Metadata :=
  (lib.commits lib.head).map CommitObject.metadata

section Publish

variable [DecidableEq Id]
-- `computeCommitID` and `compute_commit_id`, which do not hash the same bytes
variable (commitId : Host → Id → Name → Name → ℤ → Id)

/-- `Save` and `save_commit`: a commit that is there is not written again. -/
def save (lib : LibraryState Id) (id : Id) (o : CommitObject Id) : LibraryState Id :=
  { lib with
    commits := fun id' => if id' = id then some ((lib.commits id).getD o) else lib.commits id' }

/-- The id of the next commit. -/
def newHeadId (w : NewHead Id) : Id := commitId w.host w.newRoot w.user w.desc w.now

/-- A publication: the head is read, the next commit is saved, and the branch is moved to it. -/
def publish (lib : LibraryState Id) (w : NewHead Id) : Option (LibraryState Id) :=
  (lib.commits lib.head).bind fun o => (w.nextObject lib.head o).map fun o' =>
    { lib.save (newHeadId commitId w) o' with head := newHeadId commitId w }

/-- A sequence of commits. -/
def publishAll (lib : LibraryState Id) (ws : List (NewHead Id)) : Option (LibraryState Id) :=
  ws.foldlM (publish commitId) lib

/-- The next commit tells what the head tells. -/
def Spares (lib : LibraryState Id) (w : NewHead Id) : Prop :=
  match lib.commits (newHeadId commitId w) with
  | some twin => lib.metadata = some twin.metadata
  | none => w.host = .server ∨ ∃ m ∈ lib.metadata, m.desc = [] ∧ m.noLocalHistory = false

variable {commitId} {lib : LibraryState Id} {m : Metadata}

theorem publish_metadata (hm : lib.metadata = some m) (hwf : m.WellFormed) (w : NewHead Id) :
    ∃ lib', lib.publish commitId w = some lib' ∧
      (lib'.metadata = some m ↔ lib.Spares commitId w) := by
  obtain ⟨o, ho, rfl⟩ := map_eq_some_iff.1 hm
  obtain ⟨o', ho', hkeep⟩ : ∃ o', w.nextObject lib.head o = some o' ∧
      (o'.metadata = o.metadata ↔ w.host = .server ∨
        o.metadata.desc = [] ∧ o.metadata.noLocalHistory = false) := by
    unfold NewHead.nextObject
    cases w.host with
    | fileserver =>
      refine ⟨_, rfl, ?_⟩
      rw [Fileserver.metadata_nextObject hwf]
      constructor
      · intro h
        exact .inr ⟨(congrArg Metadata.desc h).symm, (congrArg Metadata.noLocalHistory h).symm⟩
      · rintro (h | ⟨hdesc, hflag⟩)
        · cases h
        · exact Metadata.ext rfl hdesc.symm rfl rfl hflag.symm
    | server =>
      obtain ⟨o', ho', hmeta⟩ :=
        Server.metadata_nextObject hwf lib.head w.newRoot w.user w.desc w.now
      exact ⟨o', ho', iff_of_true hmeta (.inl rfl)⟩
  refine ⟨_, by rw [publish, ho, bind_some, ho', map_some], ?_⟩
  have hhead : LibraryState.metadata { lib.save (newHeadId commitId w) o' with
      head := newHeadId commitId w } =
      some ((lib.commits (newHeadId commitId w)).getD o').metadata := by
    simp only [metadata, save, if_true, map_some]
  rw [hhead, some_inj, Spares]
  cases htwin : lib.commits (newHeadId commitId w) with
  | none => simpa [hm] using hkeep
  | some twin =>
    show twin.metadata = o.metadata ↔ lib.metadata = some twin.metadata
    rw [hm, some_inj]
    exact eq_comm

theorem publishAll_concat {lib' : LibraryState Id} {done : List (NewHead Id)}
    (h : lib.publishAll commitId done = some lib') (w : NewHead Id) :
    lib.publishAll commitId (done ++ [w]) = lib'.publish commitId w := by
  unfold publishAll at h ⊢
  rw [foldlM_append, h]
  exact bind_pure (lib'.publish commitId w)

/-- **The head keeps the metadata of the library** along a row of publications exactly when each
    of them spares it. -/
theorem metadata_kept_iff_spares (commitId : Host → Id → Name → Name → ℤ → Id)
    (lib : LibraryState Id) (m : Metadata) (hm : lib.metadata = some m) (hwf : m.WellFormed)
    (ws : List (NewHead Id)) :
    (∀ done, done <+: ws → ∃ lib', lib.publishAll commitId done = some lib' ∧
      lib'.metadata = some m) ↔
    ∀ done w, done ++ [w] <+: ws → ∀ lib', lib.publishAll commitId done = some lib' →
      lib'.Spares commitId w := by
  constructor
  · intro h done w hpre lib' hlib'
    obtain ⟨lib₁, h₁, hm₁⟩ := h done ((prefix_append done [w]).trans hpre)
    obtain rfl : lib₁ = lib' := some_inj.1 (h₁.symm.trans hlib')
    obtain ⟨lib₂, h₂, hm₂⟩ := h (done ++ [w]) hpre
    obtain ⟨lib₃, h₃, hspares⟩ := publish_metadata hm₁ hwf w
    rw [publishAll_concat h₁, h₃, some_inj] at h₂
    exact hspares.1 (h₂ ▸ hm₂)
  · intro h done hpre
    -- along the row: a publication that spares the metadata hands it to the next one
    induction done using reverseRecOn with
    | nil => exact ⟨lib, rfl, hm⟩
    | append_singleton done w ih =>
      obtain ⟨lib₁, h₁, hm₁⟩ := ih ((prefix_append done [w]).trans hpre)
      obtain ⟨lib₂, h₂, hspares⟩ := publish_metadata hm₁ hwf w
      exact ⟨lib₂, (publishAll_concat h₁ w).trans h₂, hspares.2 (h done w hpre lib₁ h₁)⟩

end Publish

end LibraryState

/-! A library as `create_repo_common` makes it, with a description. -/

def dObject : CommitObject ℕ where
  rootId := 0
  creatorName := some "a@b.c".toList
  description := some "Created library".toList
  ctime := 1
  parentId := none
  repoName := some "docs".toList
  repoDesc := some "all of them".toList
  encrypted := none
  encVersion := none
  magic := none
  key := none
  salt := none
  pwdHash := none
  pwdHashAlgo := none
  pwdHashParams := none
  noLocalHistory := some 1
  version := some 1
  repaired := none

def dLibrary : LibraryState ℕ := ⟨fun id => if id = 1 then some dObject else none, 1⟩

def dNewHead (host : Host) : NewHead ℕ := ⟨host, 7, "a@b.c".toList, "Added".toList, 2⟩

def dId (_ : Host) (root : ℕ) (_ _ : Name) (_ : ℤ) : ℕ := root

theorem dObject_wellFormed : dObject.metadata.WellFormed :=
  ⟨by decide, by simp [CommitObject.metadata, dObject]⟩

theorem metadata_kept_iff_spares_docs :
    dLibrary.metadata = some dObject.metadata ∧ dObject.metadata.WellFormed ∧
    ((∀ done, done <+: [dNewHead .server, dNewHead .fileserver] →
        ∃ lib', dLibrary.publishAll dId done = some lib' ∧
          lib'.metadata = some dObject.metadata) ↔
      ∀ done w, done ++ [w] <+: [dNewHead .server, dNewHead .fileserver] →
        ∀ lib', dLibrary.publishAll dId done = some lib' → lib'.Spares dId w) :=
  ⟨rfl, dObject_wellFormed,
    LibraryState.metadata_kept_iff_spares dId dLibrary _ rfl dObject_wellFormed _⟩

/-- One upload through the file server, and the description and the flag are gone. -/
theorem metadata_not_kept :
    dLibrary.metadata = some dObject.metadata ∧ dObject.metadata.WellFormed ∧
    (dLibrary.publishAll dId [dNewHead .fileserver]).bind LibraryState.metadata =
      some { dObject.metadata with desc := [], noLocalHistory := false } ∧
    dObject.metadata.desc ≠ [] ∧ dObject.metadata.noLocalHistory = true :=
  ⟨rfl, dObject_wellFormed, by decide, by decide, by decide⟩

end CloudFile
