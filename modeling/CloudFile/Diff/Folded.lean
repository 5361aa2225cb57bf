/-
  What a folded diff reports, for any two trees: in any order, with repeated names and with
  objects missing. The walk meets every entry of the directories it visits, which with folding are
  those that both sides have (`WalksTo`), and it succeeds if it can read them (`twoway_gathers`).
-/
import CloudFile.Diff.Renames
import CloudFile.Diff.Walk

namespace CloudFile

open SortedWalk GoPath List

/-! ## Steps that add to a list -/

section Gathers

variable {α β : Type} {run : List β → Option (List β)} {ok ok' : Prop} {new new' : β → Prop}

/-- A step that succeeds when `ok` holds, whatever the list, and adds the elements `new`. -/
structure Gathers (run : List β → Option (List β)) (ok : Prop) (new : β → Prop) : Prop where
  ends : ∀ s, (∃ s', run s = some s') ↔ ok
  mem : ∀ s s', run s = some s' → ∀ x, x ∈ s' ↔ x ∈ s ∨ new x

theorem Gathers.congr (h : Gathers run ok new) (hok : ok ↔ ok') (hnew : ∀ x, new x ↔ new' x) :
    Gathers run ok' new' where
  ends s := (h.ends s).trans hok
  mem s s' hs x := by rw [h.mem s s' hs, hnew]

theorem gathers_some : Gathers (some : List β → Option (List β)) True fun _ => False where
  ends s := ⟨fun _ => trivial, fun _ => ⟨s, rfl⟩⟩
  mem s s' hs x := by
    cases hs
    simp

theorem gathers_none (new : β → Prop) : Gathers (fun _ => none) False new where
  ends s := by simp
  mem s s' hs := by cases hs

theorem Gathers.bind {run' : List β → Option (List β)} (h : Gathers run ok new)
    (h' : Gathers run' ok' new') :
    Gathers (fun s => run s >>= run') (ok ∧ ok') fun x => new x ∨ new' x where
  ends s := by
    simp only [Option.bind_eq_bind, Option.bind_eq_some_iff]
    constructor
    · rintro ⟨s'', s', hs', hs''⟩
      exact ⟨(h.ends s).mp ⟨s', hs'⟩, (h'.ends s').mp ⟨s'', hs''⟩⟩
    · rintro ⟨hok, hok'⟩
      obtain ⟨s', hs'⟩ := (h.ends s).mpr hok
      obtain ⟨s'', hs''⟩ := (h'.ends s').mpr hok'
      exact ⟨s'', s', hs', hs''⟩
  mem s s'' hs x := by
    obtain ⟨s', hs', hs''⟩ := Option.bind_eq_some_iff.mp hs
    rw [h'.mem s' s'' hs'', h.mem s s' hs', or_assoc]

theorem gathers_foldlM {f : List β → α → Option (List β)} {ok : α → Prop} {new : α → β → Prop}
    {l : List α} (h : ∀ a ∈ l, Gathers (fun s => f s a) (ok a) (new a)) :
    Gathers (fun s => l.foldlM f s) (∀ a ∈ l, ok a) fun x => ∃ a ∈ l, new a x := by
  induction l with
  | nil => exact gathers_some.congr (by simp) (by simp)
  | cons a l ih =>
    have hl := ih fun b hb => h b (mem_cons_of_mem _ hb)
    refine ((h a mem_cons_self).bind hl).congr ?_ fun x => ?_
    · rw [forall_mem_cons]
    · simp

theorem gathers_pairs {f : List β → List α → Option (List β)} {ok : α → α → Prop}
    {new : α → α → β → Prop} {l : List (List α)} (hpair : ∀ row ∈ l, ∃ a b, row = [a, b])
    (h : ∀ a b, [a, b] ∈ l → Gathers (fun s => f s [a, b]) (ok a b) (new a b)) :
    Gathers (fun s => l.foldlM f s) (∀ a b, [a, b] ∈ l → ok a b)
      fun x => ∃ a b, [a, b] ∈ l ∧ new a b x := by
  have hrow : ∀ row ∈ l, Gathers (fun s => f s row) (∀ a b, row = [a, b] → ok a b)
      fun x => ∃ a b, row = [a, b] ∧ new a b x := by
    intro row hmem
    obtain ⟨a, b, rfl⟩ := hpair row hmem
    refine (h a b hmem).congr ?_ fun x => ?_
    · simp
    · simp
  refine (gathers_foldlM hrow).congr ?_ fun x => ?_
  · constructor
    · exact fun hok a b hmem => hok _ hmem a b rfl
    · rintro hok row hmem a b rfl
      exact hok a b hmem
  · constructor
    · rintro ⟨_, hmem, a, b, rfl, hx⟩
      exact ⟨a, b, hmem, hx⟩
    · rintro ⟨a, b, hmem, hx⟩
      exact ⟨_, hmem, a, b, rfl, hx⟩

end Gathers

variable {Id : Type} [ObjectId Id] [DecidableEq Id]

/-! ## What the walk visits -/

/-- The walk from the directories `o` and `n` comes to `o'` and `n'` under the path. -/
inductive WalksTo (st : FsStore Id) :
    List (Dirent Id) → List (Dirent Id) → List Name → List (Dirent Id) → List (Dirent Id) → Prop
  | here (o n : List (Dirent Id)) : WalksTo st o n [] o n
  | down {o n sub sub' o' n' : List (Dirent Id)} {d d' : Dirent Id} {path : List Name} :
      [some d, some d'] ∈ Server.treeWalk [o, n] → direntSame d d' = false → d.isDir = true →
      d'.isDir = true → st.getSeafdir d.id = some sub → st.getSeafdir d'.id = some sub' →
      WalksTo st sub sub' path o' n' → WalksTo st o n (d'.name :: path) o' n'

/-- Two directories of one name that the walk has to load. -/
def Loads (o n : List (Dirent Id)) (d d' : Dirent Id) : Prop :=
  [some d, some d'] ∈ Server.treeWalk [o, n] ∧ direntSame d d' = false ∧ d.isDir = true ∧
    d'.isDir = true

/-- The walk can read what it visits. -/
def Reads (st : FsStore Id) (o n : List (Dirent Id)) : Prop :=
  ∀ path o' n', WalksTo st o n path o' n' → ∀ d d', Loads o' n' d d' →
    (∃ es, st.getSeafdir d.id = some es) ∧ ∃ es, st.getSeafdir d'.id = some es

/-- The items of a row of a folded diff. -/
def foldedItems (a b : Option (Dirent Id)) (parent : List Name) : List (DiffItem Id) :=
  fileItems (a.filter Dirent.isReg) (b.filter Dirent.isReg) parent ++
    (dirItems true (a.filter Dirent.isDir) (b.filter Dirent.isDir) parent).1

/-- A row of two directories that the walk visits, below `parent`. -/
def FoldedItem (st : FsStore Id) (o n : List (Dirent Id)) (parent : List Name)
    (item : DiffItem Id) : Prop :=
  ∃ path o' n' a b, WalksTo st o n path o' n' ∧ [a, b] ∈ Server.treeWalk [o', n'] ∧
    rowSame [a, b] = false ∧ item ∈ foldedItems a b (parent ++ path)

/-- No directories are nested deeper than `k` below the entries, as far as they can be read. -/
def DepthLe (st : FsStore Id) : ℕ → List (Dirent Id) → Prop
  | 0, _ => False
  | k + 1, es => ∀ d ∈ es, d.isDir = true → ∀ sub, st.getSeafdir d.id = some sub → DepthLe st k sub

variable {st : FsStore Id} {o n o' n' : List (Dirent Id)} {parent : List Name}
  {a b : Option (Dirent Id)}

section

omit [ObjectId Id] [DecidableEq Id]

theorem Server.mem_treeWalk (h : [a, b] ∈ Server.treeWalk [o, n]) :
    (∀ d, a = some d → d ∈ o) ∧ (∀ d', b = some d' → d' ∈ n) ∧
      ∀ d d', a = some d → b = some d' → d.name = d'.name := by
  obtain ⟨m, a', b', hrow, ha, hb⟩ := mem_walk h
  cases hrow
  exact ⟨fun d hd => (ha d hd).1, fun d' hd' => (hb d' hd').1,
    fun d d' hd hd' => (ha d hd).2.trans (hb d' hd').2.symm⟩

theorem Server.exists_mem_treeWalk {d : Dirent Id} (hd : d ∈ n) :
    ∃ a, [a, some d] ∈ Server.treeWalk [o, n] :=
  exists_mem_walk (by simp) hd

theorem Server.treeWalk_pair {row : Row Id} (h : row ∈ Server.treeWalk [o, n]) :
    ∃ a b, row = [a, b] := by
  obtain ⟨-, a, b, hrow, -, -⟩ := mem_walk h
  exact ⟨a, b, hrow⟩

end

theorem reads_iff : Reads st o n ↔ ∀ d d', Loads o n d d' →
    ∃ sub sub', st.getSeafdir d.id = some sub ∧ st.getSeafdir d'.id = some sub' ∧
      Reads st sub sub' := by
  constructor
  · intro h d d' hload
    obtain ⟨⟨sub, hsub⟩, sub', hsub'⟩ := h [] o n (.here o n) d d' hload
    refine ⟨sub, sub', hsub, hsub', fun path o' n' hwalk => ?_⟩
    obtain ⟨hrow, hsame, hdir, hdir'⟩ := hload
    exact h _ o' n' (.down hrow hsame hdir hdir' hsub hsub' hwalk)
  · intro h path o' n' hwalk d d' hload
    cases hwalk with
    | here =>
      obtain ⟨sub, sub', hsub, hsub', -⟩ := h d d' hload
      exact ⟨⟨sub, hsub⟩, sub', hsub'⟩
    | down hrow hsame hdir hdir' hsub hsub' hwalk =>
      obtain ⟨es, es', hes, hes', hreads⟩ := h _ _ ⟨hrow, hsame, hdir, hdir'⟩
      cases hsub.symm.trans hes
      cases hsub'.symm.trans hes'
      exact hreads _ o' n' hwalk d d' hload

theorem foldedItem_iff {item : DiffItem Id} : FoldedItem st o n parent item ↔
    ∃ a b, [a, b] ∈ Server.treeWalk [o, n] ∧ rowSame [a, b] = false ∧
      (item ∈ foldedItems a b parent ∨ ∃ d d' sub sub', a = some d ∧ b = some d' ∧
        d.isDir = true ∧ d'.isDir = true ∧ st.getSeafdir d.id = some sub ∧
        st.getSeafdir d'.id = some sub' ∧ FoldedItem st sub sub' (parent ++ [d'.name]) item) := by
  constructor
  · rintro ⟨path, o', n', a, b, hwalk, hrow, hsame, hitem⟩
    cases hwalk with
    | here => exact ⟨a, b, hrow, hsame, .inl (by simpa using hitem)⟩
    | @down _ _ sub sub' _ _ d d' path hrow' hsame' hdir hdir' hsub hsub' hwalk =>
      refine ⟨some d, some d', hrow', hsame', .inr ⟨d, d', sub, sub', rfl, rfl, hdir, hdir', hsub,
        hsub', path, o', n', a, b, hwalk, hrow, hsame, ?_⟩⟩
      simpa using hitem
  · rintro ⟨a, b, hrow, hsame, hitem | ⟨d, d', sub, sub', rfl, rfl, hdir, hdir', hsub, hsub', path,
      o', n', a', b', hwalk, hrow', hsame', hitem⟩⟩
    · exact ⟨[], o, n, a, b, .here o n, hrow, hsame, by simpa using hitem⟩
    · exact ⟨d'.name :: path, o', n', a', b', .down hrow hsame hdir hdir' hsub hsub' hwalk, hrow',
        hsame', by simpa using hitem⟩

/-! ## What the diff reports -/

def Results.Puts (w : Results Id) : Prop := ∀ rs de x, x ∈ w.push rs de ↔ x ∈ rs ∨ x = de

section

omit [ObjectId Id] [DecidableEq Id]

theorem Server.puts_results : (Server.results : Results Id).Puts := fun rs de x => by
  simp [results, or_comm]

theorem Fileserver.puts_results : (Fileserver.results : Results Id).Puts := fun rs de x => by
  simp [results]

end

variable {w : Results Id}
  {recurse : List (List (Dirent Id)) → Name → List (DiffEntry Id) → Option (List (DiffEntry Id))}

section

omit [ObjectId Id] [DecidableEq Id]

theorem Results.Puts.mem_putAll (hw : w.Puts) (items : List (DiffItem Id))
    (rs : List (DiffEntry Id)) (x : DiffEntry Id) :
    x ∈ putAll w rs items ↔ x ∈ rs ∨ ∃ item ∈ items, x = item.toEntry w := by
  induction items generalizing rs with
  | nil => simp [putAll]
  | cons item items ih =>
    have hcons : putAll w rs (item :: items) = putAll w (w.push rs (item.toEntry w)) items := rfl
    rw [hcons, ih, hw, or_assoc]
    simp

theorem Results.Puts.gathers (hw : w.Puts) (items : List (DiffItem Id)) :
    Gathers (fun rs => some (putAll w rs items)) True
      fun x => ∃ item ∈ items, x = item.toEntry w where
  ends s := ⟨fun _ => trivial, fun _ => ⟨_, rfl⟩⟩
  mem s s' hs x := by
    cases hs
    exact hw.mem_putAll items s x

end

theorem diffFiles_gathers (hw : w.Puts) (a b : Option (Dirent Id)) (parent : List Name) :
    Gathers (fun rs => diffFiles (twoway w true) [a, b] (basedirOf parent) rs) True
      fun x => ∃ item ∈ fileItems (a.filter Dirent.isReg) (b.filter Dirent.isReg) parent,
        x = item.toEntry w := by
  simp only [(twoway_emits w true).diffFiles_eq, foldlM_put]
  exact hw.gathers _

section Row

variable (hw : w.Puts) (ok : List (Dirent Id) → List (Dirent Id) → Prop)
  (new : List (Dirent Id) → List (Dirent Id) → Name → DiffEntry Id → Prop)
  (hrec : ∀ d d' sub sub', a.filter Dirent.isDir = some d → b.filter Dirent.isDir = some d' →
    st.getSeafdir d.id = some sub → st.getSeafdir d'.id = some sub' → Gathers (recurse [sub,
    sub'] (basedirOf (parent ++ [d'.name]))) (ok sub sub') (new sub sub' d'.name))

include hw hrec

theorem diffDirectories_gathers :
    Gathers (fun rs => diffDirectories st (twoway w true) recurse [a, b] (basedirOf parent) rs)
      (∀ d d', a.filter Dirent.isDir = some d → b.filter Dirent.isDir = some d' →
        ∃ sub sub', st.getSeafdir d.id = some sub ∧ st.getSeafdir d'.id = some sub' ∧ ok sub sub')
      fun x => (∃ item ∈ (dirItems true (a.filter Dirent.isDir) (b.filter Dirent.isDir) parent).1,
        x = item.toEntry w) ∨ ∃ d d' sub sub', a.filter Dirent.isDir = some d ∧
          b.filter Dirent.isDir = some d' ∧ st.getSeafdir d.id = some sub ∧
          st.getSeafdir d'.id = some sub' ∧ new sub sub' d'.name x := by
  simp only [diffDirectories, map_cons, map_nil, all_isNone]
  generalize a.filter Dirent.isDir = da at hrec ⊢
  generalize b.filter Dirent.isDir = db at hrec ⊢
  by_cases hnone : da = none ∧ db = none
  · obtain ⟨rfl, rfl⟩ := hnone
    exact gathers_some.congr (by simp) (by simp [dirItems])
  simp only [if_neg hnone, twoway, twowayDiffDirs_eq hnone, Option.bind_eq_bind, Option.bind_some]
  by_cases hboth : ∃ d d', da = some d ∧ db = some d'
  · obtain ⟨d, d', rfl, rfl⟩ := hboth
    have hdown : ∀ rs, (if (dirItems true (some d) (some d') parent).2 = true then
        ([some d, some d'].mapM (loadSubDir st)).bind fun subDirs =>
          recurse subDirs (basedirOf parent ++ dirName [some d, some d'] ++ ['/'])
            (putAll w rs (dirItems true (some d) (some d') parent).1)
        else some (putAll w rs (dirItems true (some d) (some d') parent).1)) =
        (st.getSeafdir d.id).bind fun sub => (st.getSeafdir d'.id).bind fun sub' =>
          recurse [sub, sub'] (basedirOf (parent ++ [d'.name])) rs := by
      intro rs
      rw [← basedirOf_concat]
      cases hsub : st.getSeafdir d.id <;> cases hsub' : st.getSeafdir d'.id <;>
        simp [dirItems, loadSubDir, hsub, hsub', putAll, dirName]
    simp only [hdown]
    cases hsub : st.getSeafdir d.id with
    | none => exact (gathers_none _).congr (by simp [hsub]) fun _ => Iff.rfl
    | some sub =>
      cases hsub' : st.getSeafdir d'.id with
      | none => exact (gathers_none _).congr (by simp [hsub']) fun _ => Iff.rfl
      | some sub' =>
        exact (hrec d d' sub sub' rfl rfl hsub hsub').congr (by simp [hsub, hsub'])
          fun x => by simp [hsub, hsub', dirItems]
  · have hstop : (dirItems true da db parent).2 = false := by
      cases da <;> cases db <;> simp_all [dirItems]
    simp only [hstop]
    refine (hw.gathers _).congr ?_ fun x => ?_
    · exact ⟨fun _ d d' hd hd' => absurd ⟨d, d', hd, hd'⟩ hboth, fun _ => trivial⟩
    · refine (or_iff_left ?_).symm
      rintro ⟨d, d', -, -, hd, hd', -⟩
      exact hboth ⟨d, d', hd, hd'⟩

theorem diffRow_gathers :
    Gathers (fun rs => diffRow st (twoway w true) recurse (basedirOf parent) rs [a, b])
      (rowSame [a, b] = false → ∀ d d', a.filter Dirent.isDir = some d →
        b.filter Dirent.isDir = some d' → ∃ sub sub', st.getSeafdir d.id = some sub ∧
          st.getSeafdir d'.id = some sub' ∧ ok sub sub')
      fun x => rowSame [a, b] = false ∧ ((∃ item ∈ foldedItems a b parent, x = item.toEntry w) ∨
        ∃ d d' sub sub', a.filter Dirent.isDir = some d ∧ b.filter Dirent.isDir = some d' ∧
          st.getSeafdir d.id = some sub ∧ st.getSeafdir d'.id = some sub' ∧
          new sub sub' d'.name x) := by
  unfold diffRow
  cases hsame : rowSame [a, b] with
  | true => exact gathers_some.congr (by simp) (by simp)
  | false =>
    refine ((diffFiles_gathers hw a b parent).bind (diffDirectories_gathers hw ok new hrec)).congr
      (by simp) fun x => ?_
    simp only [foldedItems, mem_append, true_and, or_and_right, exists_or, or_assoc]

end Row

/-- **What a folded diff does**: it reports the rows of what it visits, if it can read that. -/
theorem twoway_gathers (hw : w.Puts) {k : ℕ} (hdepth : DepthLe st k n) :
    Gathers (diffTreesRecursive Server.treeWalk st (twoway w true) k [o, n] (basedirOf parent))
      (Reads st o n) fun x => ∃ item, FoldedItem st o n parent item ∧ x = item.toEntry w := by
  induction k generalizing o n parent with
  | zero => exact hdepth.elim
  | succ k ih =>
    refine (gathers_pairs (fun _ hmem => Server.treeWalk_pair hmem) fun a b hmem =>
      diffRow_gathers hw (Reads st) (fun sub sub' m x => ∃ item,
        FoldedItem st sub sub' (parent ++ [m]) item ∧ x = item.toEntry w)
        fun d d' sub sub' hd hd' hsub hsub' => ih ?_).congr ?_ fun x => ?_
    · obtain ⟨hb, hdir'⟩ := Option.filter_eq_some_iff.mp hd'
      exact hdepth d' ((Server.mem_treeWalk hmem).2.1 d' hb) hdir' sub' hsub'
    · rw [reads_iff]
      constructor
      · rintro h d d' ⟨hmem, hsame, hdir, hdir'⟩
        exact h _ _ hmem hsame d d' (filter_isDir_some hdir) (filter_isDir_some hdir')
      · rintro h a b hmem hsame d d' hd hd'
        obtain ⟨rfl, hdir⟩ := Option.filter_eq_some_iff.mp hd
        obtain ⟨rfl, hdir'⟩ := Option.filter_eq_some_iff.mp hd'
        exact h d d' ⟨hmem, hsame, hdir, hdir'⟩
    · simp only [foldedItem_iff (o := o)]
      constructor
      · rintro ⟨a, b, hmem, hsame, ⟨item, hitem, hx⟩ |
          ⟨d, d', sub, sub', hd, hd', hsub, hsub', item, hitem, hx⟩⟩
        · exact ⟨item, ⟨a, b, hmem, hsame, .inl hitem⟩, hx⟩
        · obtain ⟨rfl, hdir⟩ := Option.filter_eq_some_iff.mp hd
          obtain ⟨rfl, hdir'⟩ := Option.filter_eq_some_iff.mp hd'
          exact ⟨item, ⟨some d, some d', hmem, hsame, .inr ⟨d, d', sub, sub', rfl, rfl, hdir, hdir',
            hsub, hsub', hitem⟩⟩, hx⟩
      · rintro ⟨item, ⟨a, b, hmem, hsame, hitem |
          ⟨d, d', sub, sub', rfl, rfl, hdir, hdir', hsub, hsub', hitem⟩⟩, hx⟩
        · exact ⟨a, b, hmem, hsame, .inl ⟨item, hitem, hx⟩⟩
        · exact ⟨_, _, hmem, hsame, .inr ⟨d, d', sub, sub', filter_isDir_some hdir,
            filter_isDir_some hdir', hsub, hsub', item, hitem, hx⟩⟩

end CloudFile
