import FioXfs.Dir.Bounds
import FioXfs.Export.Inside
import FioXfs.Lib.Preorder
set_option autoImplicit false

/-!
# The walk as a recursive traversal

`walk_each` keeps a stack of the names still to come of each directory, last name first.  It
hands over what going through each directory recursively would, its names in ascending order; and
a path handed over resolves to the inode it was handed over with.
-/

namespace FioXfs.Volume

open FioXfs.Lib FioXfs.Dir

/-! ## Directories as a graph -/

/-- A directory's entries in ascending byte order of their names. -/
def ascending (v : Volume) (dir : Inode) : Result (List DirEntry) := do
  let names ← v.readDirInode dir
  return names.mergeSort fun a b => decide (a.rawName ≤ b.rawName)

/-- A directory's entries in the order the walk takes them off its stack. -/
def popped (v : Volume) (dir : Inode) : Result (List DirEntry) := List.reverse <$> v.sortedChildren dir

/-- Names with the paths of the directories they are in, and the names below them in the order
`names` gives. -/
def tree (v : Volume) (names : Inode → Result (List DirEntry)) :
    Graph (Bytes × DirEntry) WalkEntry Nat Error where
  visit t := do
    let i ← v.inode t.2.inode
    return ⟨addName t.1 t.2.rawName, statInode i⟩
  key e := if e.stat.isDir then some e.stat.inode else none
  children t := do
    let i ← v.inode t.2.inode
    let cs ← names i
    return cs.map (addName t.1 t.2.rawName, ·)
  again ino := .corrupt s!"directory {ino} reached twice"

/-- A frame's names, each with the frame's path. -/
def placed (f : Frame) : List (Bytes × DirEntry) := f.2.map (f.1, ·)

section
variable {v : Volume} {names : Inode → Result (List DirEntry)} {t : Bytes × DirEntry}

theorem visit_of_ok {i : Inode} (h : v.inode t.2.inode = .ok i) :
    (v.tree names).visit t = .ok ⟨addName t.1 t.2.rawName, statInode i⟩ := by
  change (do let i ← v.inode t.2.inode; _) = _
  rw [h]
  rfl

theorem visit_of_error {e : Error} (h : v.inode t.2.inode = .error e) :
    (v.tree names).visit t = .error e := by
  change (do let i ← v.inode t.2.inode; _) = _
  rw [h]
  rfl

theorem visit_eq_ok {a : WalkEntry} (h : (v.tree names).visit t = .ok a) :
    ∃ i, v.inode t.2.inode = .ok i ∧ a = ⟨addName t.1 t.2.rawName, statInode i⟩ := by
  obtain ⟨i, hi, h⟩ := except_bind_eq_ok.mp h
  exact ⟨i, hi, (Except.ok.inj h).symm⟩

theorem children_eq_ok {cs : List (Bytes × DirEntry)} (h : (v.tree names).children t = .ok cs) :
    ∃ i ds, v.inode t.2.inode = .ok i ∧ names i = .ok ds ∧
      cs = ds.map (addName t.1 t.2.rawName, ·) := by
  obtain ⟨i, hi, h⟩ := except_bind_eq_ok.mp h
  obtain ⟨ds, hds, h⟩ := except_bind_eq_ok.mp h
  exact ⟨i, ds, hi, hds, (Except.ok.inj h).symm⟩

theorem key_of_dir {path : Bytes} {i : Inode} (h : i.isDir = true) :
    (v.tree names).key ⟨path, statInode i⟩ = some i.ino :=
  if_pos h

theorem key_of_not_dir {path : Bytes} {i : Inode} (h : ¬i.isDir = true) :
    (v.tree names).key ⟨path, statInode i⟩ = none :=
  if_neg h

/-- The walk is the stack machine on the graph of its names. -/
theorem walkFrom_eq {fuel : Nat} {stack : List Frame} {visited : List Nat} :
    v.walkFrom fuel stack visited =
      ⟨((v.tree v.popped).run fuel (stack.map placed) visited).out,
        ((v.tree v.popped).run fuel (stack.map placed) visited).ended⟩ := by
  induction fuel, stack, visited using walkFrom.induct v with
  | case1 => rfl
  | case2 => rfl
  | case3 fuel visited path stack ih =>
    rw [walkFrom, ih]
    rfl
  | case4 fuel path entry rest stack visited err hi =>
    have hv : (v.tree v.popped).visit (path, entry) = .error err := visit_of_error hi
    simp only [walkFrom, hi, List.map_cons, placed, Graph.run, hv]
  | case5 fuel path entry rest stack visited i hi hdir hseen =>
    have hv := @visit_of_ok v v.popped (path, entry) i hi
    have hk := @key_of_dir v v.popped (addName path entry.rawName) i hdir
    simp only [walkFrom, hi, hdir, if_true, if_pos hseen, List.map_cons, placed, Graph.run, hv, hk]
    rfl
  | case6 fuel path entry rest stack visited i hi hdir hseen err hc =>
    have hv := @visit_of_ok v v.popped (path, entry) i hi
    have hk := @key_of_dir v v.popped (addName path entry.rawName) i hdir
    have hch : (v.tree v.popped).children (path, entry) = .error err := by
      change (do let i ← v.inode entry.inode; _) = _
      rw [hi, except_ok_bind, popped, hc]
      rfl
    simp only [walkFrom, hi, hdir, if_true, if_neg hseen, hc, List.map_cons, placed, Graph.run, hv,
      hk, hch]
  | case7 fuel path entry rest stack visited i hi item hdir hseen children hc ih =>
    have hv := @visit_of_ok v v.popped (path, entry) i hi
    have hk := @key_of_dir v v.popped (addName path entry.rawName) i hdir
    have hch : (v.tree v.popped).children (path, entry) =
        .ok (placed (addName path entry.rawName, children.reverse)) := by
      change (do let i ← v.inode entry.inode; _) = _
      rw [hi, except_ok_bind, popped, hc]
      rfl
    simp only [List.map_cons, placed] at ih
    simp only [walkFrom, hi, hdir, if_true, if_neg hseen, hc, List.map_cons, placed, Graph.run, hv,
      hk, hch]
    exact (congrArg (TreeWalk.after item) ih).trans rfl
  | case8 fuel path entry rest stack visited i hi hdir ih =>
    have hv := @visit_of_ok v v.popped (path, entry) i hi
    have hk := @key_of_not_dir v v.popped (addName path entry.rawName) i hdir
    simp only [List.map_cons, placed] at ih
    simp only [walkFrom, hi, if_neg hdir, List.map_cons, placed, Graph.run, hv, hk, ih]
    rfl

/-! ## Names of directories -/

/-- A directory below `top`, or `top` itself. -/
inductive Under (v : Volume) (top : Inode) : Inode → Prop where
  | top : Under v top top
  | named {i j : Inode} {names : List DirEntry} {d : DirEntry} : Under v top i →
      v.readDirInode i = .ok names → d ∈ names → v.inode d.inode = .ok j → j.isDir = true →
      Under v top j

/-- Each directory's names are distinct and none has a slash in it, and those held in memory are
not empty. -/
structure NamesOk (v : Volume) (top : Inode) : Prop where
  distinct : ∀ i, Under v top i → ∀ names, v.readDirInode i = .ok names →
    (names.map (·.rawName)).Nodup
  noSlash : ∀ i, Under v top i → ∀ names, v.readDirInode i = .ok names →
    ∀ d ∈ names, SLASH ∉ d.rawName
  held : ∀ w, v.w = some w → ∀ ino dir, w.dirs.get? ino = some dir →
    ∀ e ∈ dir.names.entries, e.1 ≠ []

theorem shortEntries_ne_nil {sb : Superblock} {isz : Nat} {buf : Bytes} :
    ∀ {count p : Nat} {out : List RawEntry}, shortEntries sb isz buf count p = .ok out →
      ∀ e ∈ out, e.name ≠ [] := by
  intro count
  induction count with
  | zero =>
    intro p out h
    cases h
    exact fun e he => absurd he List.not_mem_nil
  | succ count ih =>
    intro p out h
    rw [shortEntries] at h
    simp only [except_bind_eq_ok, except_throwIf_eq_ok, exists_const] at h
    obtain ⟨-, hlen, ino, -, rest, hrest, h⟩ := h
    cases h
    refine List.forall_mem_cons.mpr ⟨fun hnil => ?_, ih hrest⟩
    have hslice : (slice buf (p + 3) (getBe 1 buf p)).length = getBe 1 buf p :=
      length_slice (by omega)
    change slice buf (p + 3) (getBe 1 buf p) = [] at hnil
    rw [hnil] at hslice
    exact hlen (Or.inl hslice.symm)

/-- No directory on disk has an empty name. -/
theorem names_ne_nil {top i : Inode} (hok : v.NamesOk top) {raw : List RawEntry}
    (h : v.dirEntries i = .ok raw) : ∀ e ∈ raw, e.name ≠ [] := by
  have hdots : ∀ {a b : Nat} {rest : List RawEntry}, (∀ e ∈ rest, e.name ≠ []) →
      ∀ e ∈ (⟨DOT, a, .directory⟩ : RawEntry) :: ⟨DOTDOT, b, .directory⟩ :: rest, e.name ≠ [] :=
    fun hrest => List.forall_mem_cons.mpr ⟨List.cons_ne_nil _ _,
      List.forall_mem_cons.mpr ⟨List.cons_ne_nil _ _, hrest⟩⟩
  unfold dirEntries at h
  obtain ⟨_, -, h⟩ := except_bind_eq_ok.mp h
  cases hcache : v.w.bind (·.cachedEntries i.ino) with
  | some names =>
    rw [hcache] at h
    cases h
    obtain ⟨w, hw, hnames⟩ := Option.bind_eq_some_iff.mp hcache
    obtain ⟨dir, hdir, rfl⟩ := Option.map_eq_some_iff.mp hnames
    refine hdots fun e he => ?_
    obtain ⟨x, hx, rfl⟩ := List.mem_map.mp he
    exact hok.held w hw _ _ hdir x hx
  | none =>
    rw [hcache] at h
    simp only at h
    split at h
    · obtain ⟨⟨parent, names⟩, hnames, h⟩ := except_bind_eq_ok.mp h
      cases h
      unfold parseShortform at hnames
      obtain ⟨_, -, hnames⟩ := except_bind_eq_ok.mp hnames
      obtain ⟨_, -, hnames⟩ := except_bind_eq_ok.mp hnames
      obtain ⟨short, hshort, hnames⟩ := except_bind_eq_ok.mp hnames
      obtain ⟨-, rfl⟩ := Prod.mk.inj (Except.ok.inj hnames)
      exact hdots (shortEntries_ne_nil hshort)
    · obtain ⟨extents, -, h⟩ := except_bind_eq_ok.mp h
      obtain ⟨per, -, h⟩ := except_bind_eq_ok.mp h
      obtain ⟨blocks, hblocks, h⟩ := except_bind_eq_ok.mp h
      cases h
      intro e he
      obtain ⟨block, hblock, he⟩ := List.mem_flatten.mp he
      have hone : ∀ lblk, Ensures (fun _ => False)
          (v.readMapped extents lblk per >>= fun buf => parseDataBlock v.sb buf i.ino)
          fun b => ∀ e ∈ b, e.name ≠ [] := by
        refine fun lblk => ⟨fun _ _ => id, fun b hb => ?_⟩
        obtain ⟨buf, -, hb⟩ := except_bind_eq_ok.mp hb
        obtain ⟨hdr, blockForm, stop, -, -, hend, hb⟩ := parseDataBlock_eq_ok.mp hb
        exact fun e he => (names_inside (namesEnd_le hend) (le_refl hdr) hb e he).1
      exact (ensures_mapM fun lblk _ => hone lblk).2 blocks hblocks block hblock e he

/-- A name listed is found where it is listed. -/
theorem findEntry_of_mem {es : List RawEntry} {out : List DirEntry}
    (h : v.readEntries es = .ok out) (hnodup : (out.map (·.rawName)).Nodup) {d : DirEntry}
    (hd : d ∈ out) : (findEntry es d.rawName).map (·.ino) = some d.inode := by
  induction es generalizing out with
  | nil =>
    cases h
    exact absurd hd List.not_mem_nil
  | cons e es ih =>
    rw [readEntries] at h
    unfold findEntry
    rw [List.find?_cons]
    split_ifs at h with hdots
    · obtain ⟨e', -, hname, hne, hne'⟩ := mem_readEntries h d hd
      have hskip : e.name ≠ d.rawName := by
        rintro heq
        rw [hname, ← heq] at hne hne'
        exact hdots.elim hne hne'
      rw [decide_eq_false hskip]
      exact ih h hnodup hd
    · obtain ⟨kind, -, h⟩ := except_bind_eq_ok.mp h
      obtain ⟨rest, hrest, h⟩ := except_bind_eq_ok.mp h
      cases h
      rcases List.mem_cons.mp hd with rfl | hd
      · rw [decide_eq_true rfl]
        rfl
      · obtain ⟨hnot, hnodup⟩ := List.nodup_cons.mp hnodup
        have hskip : e.name ≠ d.rawName := fun heq =>
          hnot (List.mem_map.mpr ⟨d, hd, heq.symm⟩)
        rw [decide_eq_false hskip]
        exact ih hrest hnodup hd

theorem plain_of_names {top i : Inode} (hok : v.NamesOk top) (hi : Under v top i)
    {names : List DirEntry} (h : v.readDirInode i = .ok names) : ∀ d ∈ names, Plain d.rawName := by
  intro d hd
  obtain ⟨raw, hraw, hnames⟩ := except_bind_eq_ok.mp h
  obtain ⟨e, he, heq, hdot, hdotdot⟩ := mem_readEntries hnames d hd
  have hne := names_ne_nil hok hraw e he
  rw [heq] at hne hdot hdotdot
  exact ⟨hne, hok.noSlash i hi names h d hd, hdot, hdotdot⟩

/-- The last name taken first, a directory's names are in ascending order. -/
theorem popped_eq_ascending {top i : Inode} (hok : v.NamesOk top) (hi : Under v top i) :
    v.popped i = v.ascending i := by
  unfold popped ascending sortedChildren
  cases h : v.readDirInode i with
  | error e => rfl
  | ok names =>
    have hnodup := hok.distinct i hi names h
    have hinj : ∀ a ∈ names, ∀ b ∈ names, a.rawName = b.rawName → a = b :=
      List.inj_on_of_nodup_map hnodup
    have hup : (names.mergeSort fun a b => decide (a.rawName ≤ b.rawName)).Pairwise
        fun a b => decide (a.rawName ≤ b.rawName) = true :=
      List.pairwise_mergeSort
        (fun a b c hab hbc => by simpa using le_trans (by simpa using hab) (by simpa using hbc))
        (fun a b => by simpa using le_total a.rawName b.rawName) names
    have hdown : (names.mergeSort fun a b => decide (b.rawName ≤ a.rawName)).Pairwise
        fun a b => decide (b.rawName ≤ a.rawName) = true :=
      List.pairwise_mergeSort
        (fun a b c hab hbc => by simpa using le_trans (by simpa using hbc) (by simpa using hab))
        (fun a b => by simpa using le_total b.rawName a.rawName) names
    refine congrArg Except.ok (List.Perm.eq_of_pairwise ?_ (List.pairwise_reverse.mpr hdown) hup ?_)
    · intro a b ha hb hab hba
      rw [List.mem_reverse, List.mem_mergeSort] at ha
      rw [List.mem_mergeSort] at hb
      exact hinj a ha b hb (le_antisymm (by simpa using hab) (by simpa using hba))
    · exact (List.reverse_perm _).trans
        ((List.mergeSort_perm _ _).trans (List.mergeSort_perm _ _).symm)

/-- Names taken one after another have their byte order. -/
theorem ascending_pairwise {top i : Inode} (hok : v.NamesOk top) (hi : Under v top i)
    {ds : List DirEntry} (h : v.ascending i = .ok ds) :
    ds.Pairwise (fun a b => a.rawName < b.rawName) ∧
      ∃ names, v.readDirInode i = .ok names ∧ ds.Perm names := by
  obtain ⟨names, hnames, h⟩ := except_bind_eq_ok.mp h
  have heq := (Except.ok.inj h).symm
  have hperm : ds.Perm names := heq ▸ List.mergeSort_perm _ _
  refine ⟨?_, names, hnames, hperm⟩
  have hle : ds.Pairwise fun a b => decide (a.rawName ≤ b.rawName) = true := by
    rw [heq]
    exact List.pairwise_mergeSort
      (fun a b c hab hbc => by simpa using le_trans (by simpa using hab) (by simpa using hbc))
      (fun a b => by simpa using le_total a.rawName b.rawName) names
  have hne : ds.Pairwise fun a b => a.rawName ≠ b.rawName :=
    List.pairwise_map.mp ((hperm.map _).nodup_iff.mpr (hok.distinct i hi names hnames))
  exact (hle.and hne).imp fun ⟨h1, h2⟩ => lt_of_le_of_ne (by simpa using h1) h2

/-! ## Resolving a path handed over -/

/-- Components followed from the directory `top` lead to the directory `ino`. -/
def LeadsTo (v : Volume) (top : Nat) (comps : List Bytes) (ino : Nat) : Prop :=
  ∀ path rest, rest ≠ [] →
    v.walkComps path false top (comps ++ rest) = v.walkComps path false ino rest

/-- A name in a directory is followed to its inode, and past it when that is a directory. -/
theorem walkComps_name {top i : Inode} (hok : v.NamesOk top) (hi : Under v top i) {ino : Nat}
    (hino : v.inode ino = .ok i) (hdir : i.isDir = true) {names : List DirEntry}
    (h : v.readDirInode i = .ok names) {d : DirEntry} (hd : d ∈ names) (path : Bytes) :
    v.walkComps path false ino [d.rawName] = .ok (.done d.inode) ∧
      ∀ j, v.inode d.inode = .ok j → j.isDir = true → ∀ rest, rest ≠ [] →
        v.walkComps path false ino (d.rawName :: rest) = v.walkComps path false d.inode rest := by
  obtain ⟨raw, hraw, hnames⟩ := except_bind_eq_ok.mp h
  have hfind := findEntry_of_mem hnames (hok.distinct i hi names h) hd
  have hlook : v.dirLookup i d.rawName = .ok (some d.inode) := by
    unfold dirLookup
    rw [hraw, except_ok_bind, hfind]
    rfl
  have hnot : ¬(!i.isDir) = true := by simp [hdir]
  constructor
  · rw [walkComps, hino, except_ok_bind, except_throwIf_bind_of_not hnot, hlook, except_ok_bind]
    rfl
  · intro j hj hjdir rest hrest
    have hlink : j.fileType ≠ Mode.IFLNK := by
      have hmode : j.fileType = Mode.IFDIR := by simpa [Inode.isDir] using hjdir
      rw [hmode]
      decide
    conv_lhs => rw [walkComps]
    rw [hino, except_ok_bind, except_throwIf_bind_of_not hnot, hlook, except_ok_bind]
    dsimp only
    rw [if_neg (fun hboth => hrest hboth.1), hj, except_ok_bind, if_neg hlink]

/-- A path's components followed on with more after them. -/
theorem walkComps_append {path path' : Bytes} {rest : List Bytes} (hrest : rest ≠ []) :
    ∀ {comps : List Bytes} {cur : Nat} {r : Walked}, v.walkComps path true cur comps = .ok r →
      v.walkComps path' false cur (comps ++ rest) = match r with
        | .done ino => v.walkComps path' false ino rest
        | .link dir i left => .ok (.link dir i (left ++ rest)) := by
  intro comps
  induction comps with
  | nil =>
    intro cur r h
    rw [walkComps] at h
    rw [← Except.ok.inj h]
    rfl
  | cons comp comps ih =>
    intro cur r h
    rw [walkComps] at h
    simp only [except_bind_eq_ok, except_throwIf_eq_ok, exists_const] at h
    obtain ⟨dir, hdir, hisdir, child, hchild, h⟩ := h
    rw [List.cons_append, walkComps, hdir, except_ok_bind, except_throwIf_bind_of_not hisdir, hchild,
      except_ok_bind]
    cases child with
    | none => cases h
    | some child =>
      dsimp only at h ⊢
      rw [if_neg (fun hboth => Bool.noConfusion hboth.2)] at h
      obtain ⟨i, hi, h⟩ := except_bind_eq_ok.mp h
      rw [if_neg (fun hboth => hrest (List.append_eq_nil_iff.mp hboth.1).2), hi, except_ok_bind]
      split at h
      · rename_i hlink
        rw [if_pos hlink, ← Except.ok.inj h]
        rfl
      · rename_i hlink
        rw [if_neg hlink]
        exact ih h

theorem resolveLoop_append {path path' : Bytes} {rest : List Bytes} (hrest : rest ≠ [])
    {top ino : Nat} (hlast : v.walkComps path' false top rest = .ok (.done ino)) :
    ∀ {left cur : Nat} {comps : List Bytes}, v.resolveLoop path true left cur comps = .ok top →
      v.resolveLoop path' false left cur (comps ++ rest) = .ok ino := by
  intro left
  induction left with
  | zero =>
    intro cur comps h
    rw [resolveLoop] at h ⊢
    obtain ⟨r, hr, h⟩ := except_bind_eq_ok.mp h
    rw [walkComps_append hrest hr]
    cases r with
    | done t =>
      obtain rfl := Except.ok.inj h
      dsimp only
      rw [hlast]
      rfl
    | link dir i more => cases h
  | succ left ih =>
    intro cur comps h
    rw [resolveLoop] at h ⊢
    obtain ⟨r, hr, h⟩ := except_bind_eq_ok.mp h
    rw [walkComps_append hrest hr]
    cases r with
    | done t =>
      obtain rfl := Except.ok.inj h
      dsimp only
      rw [hlast]
      rfl
    | link dir i more =>
      obtain ⟨target, htarget, h⟩ := except_bind_eq_ok.mp h
      dsimp only
      rw [except_ok_bind]
      dsimp only
      rw [htarget, except_ok_bind, ← List.append_assoc]
      exact ih h

theorem splitPath_joined {comps : List Bytes} (h : ∀ c ∈ comps, Plain c) (hne : comps ≠ [])
    (root : Bytes) : splitPath (root ++ SLASH :: joined comps) = splitPath root ++ comps := by
  have hsplit : (joined comps).splitOn SLASH = comps :=
    List.splitOn_intercalate SLASH (fun c hc => (h c hc).slash) hne
  unfold splitPath
  rw [List.splitOn_append_cons_self, hsplit, List.filter_append, List.append_right_inj]
  refine List.filter_eq_self.mpr fun c hc => ?_
  have hc := h c hc
  simpa using ⟨hc.nonempty, hc.dot⟩

/-! ## The whole walk -/

/-- Inode numbers there can be. -/
theorem ino_lt {ino : Nat} {i : Inode} (h : v.inode ino = .ok i) :
    ino < v.sb.agCount * 2 ^ v.sb.aginoLog := by
  obtain ⟨at_, hat, -⟩ := except_bind_eq_ok.mp h
  unfold Superblock.inoToByte at hat
  dsimp only at hat
  split at hat
  · cases hat
  · rename_i hin
    have hag : ino / 2 ^ v.sb.aginoLog < v.sb.agCount := by
      generalize ino / 2 ^ v.sb.aginoLog = q at hin
      generalize ino % 2 ^ v.sb.aginoLog / 2 ^ v.sb.inopbLog = b at hin
      omega
    exact (Nat.div_lt_iff_lt_mul (Nat.two_pow_pos _)).mp hag

/-- A name with the path of a directory below `top` that holds it. -/
structure HeldAt (v : Volume) (top : Inode) (t : Bytes × DirEntry) (comps : List Bytes) (i : Inode)
    (names : List DirEntry) : Prop where
  under : Under v top i
  inode_eq : v.inode i.ino = .ok i
  isDir : i.isDir = true
  plain : ∀ c ∈ comps, Plain c
  path_eq : t.1 = joined comps
  leads : LeadsTo v top.ino comps i.ino
  names_eq : v.readDirInode i = .ok names
  mem : t.2 ∈ names

/-- The names in a directory held are held. -/
theorem HeldAt.child {top : Inode} (hok : v.NamesOk top) {comps : List Bytes} {i j : Inode}
    {names ds : List DirEntry} (h : HeldAt v top t comps i names) (hj : v.inode t.2.inode = .ok j)
    (hdir : j.isDir = true) (hds : v.readDirInode j = .ok ds) {d : DirEntry} (hd : d ∈ ds) :
    HeldAt v top (addName t.1 t.2.rawName, d) (comps ++ [t.2.rawName]) j ds := by
  have hplain := plain_of_names hok h.under h.names_eq t.2 h.mem
  have hino := ino_of_inode hj
  refine ⟨h.under.named h.names_eq h.mem hj hdir, by rwa [hino], hdir, fun c hc => ?_, ?_, ?_, hds, hd⟩
  · rcases List.mem_append.mp hc with hc | hc
    · exact h.plain c hc
    · rwa [List.mem_singleton.mp hc]
  · rw [h.path_eq, addName_joined h.plain]
  · intro path rest hrest
    obtain ⟨-, hstep⟩ := walkComps_name hok h.under h.inode_eq h.isDir h.names_eq h.mem path
    rw [List.append_assoc, h.leads path _ (by simp), List.singleton_append, hstep j hj hdir rest hrest,
      hino]

/-- What is handed over for a name held resolves to it. -/
theorem HeldAt.resolve {top : Inode} (hok : v.NamesOk top) {root : Bytes}
    (htop : v.walkTop root = .ok top) {comps : List Bytes} {i : Inode} {names : List DirEntry}
    (h : HeldAt v top t comps i names) {e : WalkEntry} (hv : (v.tree v.popped).visit t = .ok e) :
    v.resolve (root ++ SLASH :: e.rawPath) false = .ok e.stat.inode := by
  obtain ⟨j, hj, rfl⟩ := visit_eq_ok hv
  obtain ⟨ino, hino, hrest⟩ := except_bind_eq_ok.mp htop
  obtain ⟨top', htop', hrest⟩ := except_bind_eq_ok.mp hrest
  obtain ⟨_, -, hrest⟩ := except_bind_eq_ok.mp hrest
  obtain rfl := Except.ok.inj hrest
  obtain rfl := ino_of_inode htop'
  have hplain := plain_of_names hok h.under h.names_eq t.2 h.mem
  have hcomps : ∀ c ∈ comps ++ [t.2.rawName], Plain c := by
    intro c hc
    rcases List.mem_append.mp hc with hc | hc
    · exact h.plain c hc
    · rwa [List.mem_singleton.mp hc]
  have hne : comps ++ [t.2.rawName] ≠ [] := by simp
  have hlast : ∀ path, v.walkComps path false top'.ino (comps ++ [t.2.rawName]) =
      .ok (.done t.2.inode) := by
    intro path
    rw [h.leads path _ (by simp)]
    exact (walkComps_name hok h.under h.inode_eq h.isDir h.names_eq h.mem path).1
  change v.resolve (root ++ SLASH :: addName t.1 t.2.rawName) false = .ok j.ino
  rw [h.path_eq, addName_joined h.plain, Volume.resolve, splitPath_joined hcomps hne, ino_of_inode hj]
  exact resolveLoop_append hne (hlast _) hino

end

theorem inode_of_walkTop {v : Volume} {root : Bytes} {top : Inode} (h : v.walkTop root = .ok top) :
    v.inode top.ino = .ok top ∧ top.isDir = true := by
  obtain ⟨ino, -, hrest⟩ := except_bind_eq_ok.mp h
  obtain ⟨i, hi, hrest⟩ := except_bind_eq_ok.mp hrest
  simp only [except_bind_eq_ok, except_throwIf_eq_ok, exists_const] at hrest
  obtain ⟨hdir, hrest⟩ := hrest
  obtain rfl := Except.ok.inj hrest
  exact ⟨by rwa [ino_of_inode hi], by simpa using hdir⟩

open Graph in
/-- The walk of a directory hands over what going through each directory recursively does, its
names in ascending byte order, and ends as that does: past the last name, at a directory met
before, or where something cannot be read.  Every path handed over resolves to its inode. -/
theorem walk_is_preorder {v : Volume} {root : Bytes} {top : Inode} {ds : List DirEntry}
    (htop : v.walkTop root = .ok top) (hds : v.ascending top = .ok ds) (hok : v.NamesOk top) :
    ∃ out r, Preorder (v.tree v.ascending) (placed ([], ds)) [top.ino] out r ∧
      (∀ out' r', Preorder (v.tree v.ascending) (placed ([], ds)) [top.ino] out' r' →
        out' = out ∧ (r'.map fun _ => ()) = r.map fun _ => ()) ∧
      (∀ i, Under v top i → ∀ cs, v.ascending i = .ok cs →
        cs.Pairwise (fun a b => a.rawName < b.rawName) ∧
          ∃ names, v.readDirInode i = .ok names ∧ cs.Perm names) ∧
      (∃ n, ∀ fuel, n ≤ fuel → v.walkEach root fuel = ⟨out, some (r.map fun _ => ())⟩) ∧
      (v.tree v.ascending).EndsAs [top.ino] out r ∧
      ∀ e ∈ out, v.resolve (root ++ SLASH :: e.rawPath) false = .ok e.stat.inode := by
  obtain ⟨hino, hdir⟩ := inode_of_walkTop htop
  -- The names of the top are held, and with a directory's the names in it.
  have hstart : ∀ t ∈ placed ([], ds), ∃ comps i names, HeldAt v top t comps i names := by
    intro t ht
    obtain ⟨-, names, hnames, hperm⟩ := ascending_pairwise hok .top hds
    obtain ⟨d, hd, rfl⟩ := List.mem_map.mp ht
    exact ⟨[], top, names, .top, hino, hdir, fun c hc => absurd hc List.not_mem_nil, rfl,
      fun path rest _ => rfl, hnames, hperm.mem_iff.mp hd⟩
  have hdirOf : ∀ t (a : WalkEntry) k, (v.tree v.popped).visit t = .ok a →
      (v.tree v.popped).key a = some k → ∃ j, v.inode t.2.inode = .ok j ∧ j.isDir = true ∧ k = j.ino := by
    intro t a k hv hk
    obtain ⟨j, hj, rfl⟩ := visit_eq_ok hv
    by_cases hjdir : j.isDir = true
    · rw [key_of_dir hjdir] at hk
      exact ⟨j, hj, hjdir, (Option.some.inj hk).symm⟩
    · rw [key_of_not_dir hjdir] at hk
      cases hk
  have hsame : ∀ t (a : WalkEntry) k, (∃ comps i names, HeldAt v top t comps i names) →
      (v.tree v.popped).visit t = .ok a → (v.tree v.popped).key a = some k →
      (v.tree v.ascending).children t = (v.tree v.popped).children t := by
    rintro t a k ⟨comps, i, names, h⟩ hv hk
    obtain ⟨j, hj, hjdir, -⟩ := hdirOf t a k hv hk
    have heq := popped_eq_ascending hok (h.under.named h.names_eq h.mem hj hjdir)
    change (do let i ← v.inode t.2.inode; _) = (do let i ← v.inode t.2.inode; _)
    rw [hj, except_ok_bind, except_ok_bind, heq]
  have hstep : ∀ t (a : WalkEntry) k cs, (∃ comps i names, HeldAt v top t comps i names) →
      (v.tree v.popped).visit t = .ok a → (v.tree v.popped).key a = some k →
      (v.tree v.popped).children t = .ok cs →
      ∀ c ∈ cs, ∃ comps i names, HeldAt v top c comps i names := by
    rintro t a k cs ⟨comps, i, names, h⟩ hv hk hc c hcs
    obtain ⟨j, hj, hjdir, -⟩ := hdirOf t a k hv hk
    obtain ⟨j', ds', hj', hds', rfl⟩ := children_eq_ok hc
    obtain rfl := Except.ok.inj (hj.symm.trans hj')
    have hunder := h.under.named h.names_eq h.mem hj hjdir
    rw [popped_eq_ascending hok hunder] at hds'
    obtain ⟨-, names', hnames', hperm⟩ := ascending_pairwise hok hunder hds'
    obtain ⟨d, hd, rfl⟩ := List.mem_map.mp hcs
    exact ⟨_, j, names', h.child hok hj hjdir hnames' (hperm.mem_iff.mp hd)⟩
  -- Inode numbers are bounded, so the traversal ends.
  obtain ⟨K, hK⟩ : ∃ K, K = Finset.range (v.sb.agCount * 2 ^ v.sb.aginoLog) := ⟨_, rfl⟩
  have hkeys : ∀ t (a : WalkEntry) k, (v.tree v.popped).visit t = .ok a →
      (v.tree v.popped).key a = some k → k ∈ K := by
    intro t a k hv hk
    obtain ⟨j, hj, -, rfl⟩ := hdirOf t a k hv hk
    rw [hK, Finset.mem_range, ino_of_inode hj]
    exact ino_lt hj
  have hseen : SeenOf K [top.ino] := by
    refine ⟨List.nodup_singleton _, fun k hk => ?_⟩
    rw [List.mem_singleton.mp hk, hK, Finset.mem_range]
    exact ino_lt hino
  obtain ⟨out, r, hpop, -⟩ := exists_preorder hkeys _ (placed ([], ds)) _ hseen (le_refl _)
  have hpre : Graph.Preorder (v.tree v.ascending) (placed ([], ds)) [top.ino] out r :=
    hpop.congr hstart rfl rfl rfl hsame hstep
  refine ⟨out, r, hpre, fun out' r' h' => hpre.unique h', fun i hi cs hcs =>
    ascending_pairwise hok hi hcs, ?_, hpre.endsAs (List.nodup_singleton _), fun e he => ?_⟩
  · obtain ⟨n, hn⟩ := run_single hpop
    refine ⟨n, fun fuel hfuel => ?_⟩
    have hsorted : List.reverse <$> v.sortedChildren top = .ok ds :=
      (popped_eq_ascending hok .top).trans hds
    unfold walkEach
    rw [htop]
    dsimp only
    cases hc : v.sortedChildren top with
    | error e =>
      rw [hc] at hsorted
      cases hsorted
    | ok children =>
      rw [hc] at hsorted
      obtain rfl := Except.ok.inj hsorted
      dsimp only
      rw [walkFrom_eq]
      have hrun := hn fuel hfuel
      rw [List.map_cons, List.map_nil, hrun]
  · obtain ⟨t, ⟨comps, i, names, h⟩, hv⟩ := hpop.forall_out hstart hstep e he
    exact h.resolve hok htop hv

/-! ## Small trees -/

/-- A root directory with the directory `a` and the file `b`, whose other name is `c` in `a`; `a`
has more names. -/
def nestedTree (more : List DirEntry) : Volume :=
  treeVolume [(16, inlineInode (Mode.IFDIR + 0o755) 3 .local_ (shortNames 16 [([97], 17), ([98], 18)])),
    (17, inlineInode (Mode.IFDIR + 0o755) 2 .local_
      (shortNames 16 (([99], 18) :: more.map fun d => (d.rawName, d.inode)))),
    (18, inlineInode (Mode.IFREG + 0o644) 2 .extents [])]

/-- The names in the root. -/
def outerNames : List DirEntry := [⟨[97], 17, .directory⟩, ⟨[98], 18, .file⟩]

/-- The names in `a`. -/
def innerNames (more : List DirEntry) : List DirEntry := ⟨[99], 18, .file⟩ :: more

/-- The root's own name in `a`, `d`, which makes a cycle. -/
def backName : List DirEntry := [⟨[100], 16, .directory⟩]

/-- What the directories and the file of the tree read as. -/
structure Nested (v : Volume) (more : List DirEntry) (top sub file : Inode) : Prop where
  walkTop : v.walkTop [] = .ok top
  root : v.inode 16 = .ok top
  outer : v.readDirInode top = .ok outerNames
  below : v.inode 17 = .ok sub
  inner : v.readDirInode sub = .ok (innerNames more)
  leaf : v.inode 18 = .ok file
  isDir : top.isDir = true ∧ sub.isDir = true ∧ ¬file.isDir = true
  unwritten : v.w = none

theorem exists_of_map_toOption {α β : Type} {x : Result α} {f : α → β} {b : β}
    (h : x.toOption.map f = some b) : ∃ a, x = .ok a ∧ f a = b := by
  cases x with
  | error e => cases h
  | ok a => exact ⟨a, rfl, Option.some.inj h⟩

theorem nested_of_reads {more : List DirEntry}
    (h : ((nestedTree more).walkTop []).toOption.map (fun i =>
          (i.ino, (nestedTree more).readDirInode i)) = some (16, .ok outerNames) ∧
      ((nestedTree more).inode 17).toOption.map (fun i =>
          (i.isDir, (nestedTree more).readDirInode i)) = some (true, .ok (innerNames more)) ∧
      ((nestedTree more).inode 18).toOption.map Inode.isDir = some false) :
    ∃ top sub file, Nested (nestedTree more) more top sub file := by
  obtain ⟨htop, hsub, hfile⟩ := h
  obtain ⟨top, htop, h⟩ := exists_of_map_toOption htop
  obtain ⟨hino, hread⟩ := Prod.mk.inj h
  obtain ⟨sub, hsub, h⟩ := exists_of_map_toOption hsub
  obtain ⟨hsubdir, hsubread⟩ := Prod.mk.inj h
  obtain ⟨file, hfile, hfiledir⟩ := exists_of_map_toOption hfile
  obtain ⟨hroot, hdir⟩ := inode_of_walkTop htop
  rw [hino] at hroot
  exact ⟨top, sub, file, htop, hroot, hread, hsub, hsubread, hfile,
    ⟨hdir, hsubdir, by rw [hfiledir]; exact Bool.false_ne_true⟩, rfl⟩

set_option maxRecDepth 100000 in
theorem nested_tree : ∃ top sub file, Nested (nestedTree []) [] top sub file :=
  nested_of_reads (by decide +kernel)

set_option maxRecDepth 100000 in
theorem nested_loop : ∃ top sub file, Nested (nestedTree backName) backName top sub file :=
  nested_of_reads (by decide +kernel)

namespace Nested

variable {v : Volume} {more : List DirEntry} {top sub file : Inode}

/-- Only the root and `a` are directories. -/
theorem eq_of_under (h : Nested v more top sub file) (hmore : ∀ d ∈ more, d.inode = 16) {i : Inode}
    (hi : Under v top i) : i = top ∨ i = sub := by
  have hone : ∀ {d : DirEntry} {j : Inode}, v.inode d.inode = .ok j → j.isDir = true →
      d.inode = 16 ∨ d.inode = 17 ∨ d.inode = 18 → j = top ∨ j = sub := by
    intro d j hj hdir hd
    rcases hd with hd | hd | hd <;> rw [hd] at hj
    · exact Or.inl (Except.ok.inj (hj.symm.trans h.root))
    · exact Or.inr (Except.ok.inj (hj.symm.trans h.below))
    · rw [Except.ok.inj (hj.symm.trans h.leaf)] at hdir
      exact absurd hdir h.isDir.2.2
  induction hi with
  | top => exact Or.inl rfl
  | @named i j names d _ hnames hd hj hdir ih =>
    refine hone hj hdir ?_
    rcases ih with rfl | rfl
    · rw [Except.ok.inj (hnames.symm.trans h.outer)] at hd
      simp only [outerNames, List.mem_cons, List.not_mem_nil, or_false] at hd
      rcases hd with rfl | rfl
      · exact Or.inr (Or.inl rfl)
      · exact Or.inr (Or.inr rfl)
    · rw [Except.ok.inj (hnames.symm.trans h.inner)] at hd
      rcases List.mem_cons.mp hd with rfl | hd
      · exact Or.inr (Or.inr rfl)
      · exact Or.inl (hmore d hd)

theorem namesOk (h : Nested v more top sub file) (hmore : ∀ d ∈ more, d.inode = 16)
    (hdistinct : ((innerNames more).map (·.rawName)).Nodup)
    (hplain : ∀ d ∈ innerNames more, SLASH ∉ d.rawName) : v.NamesOk top := by
  have hof : ∀ i, Under v top i → ∀ names, v.readDirInode i = .ok names →
      names = outerNames ∨ names = innerNames more := by
    intro i hi names hnames
    rcases h.eq_of_under hmore hi with rfl | rfl
    · exact Or.inl (Except.ok.inj (hnames.symm.trans h.outer))
    · exact Or.inr (Except.ok.inj (hnames.symm.trans h.inner))
  refine ⟨fun i hi names hnames => ?_, fun i hi names hnames => ?_, fun w hw => ?_⟩
  · rcases hof i hi names hnames with rfl | rfl
    · decide
    · exact hdistinct
  · rcases hof i hi names hnames with rfl | rfl
    · decide
    · exact hplain
  · rw [h.unwritten] at hw
    cases hw

theorem ascending_outer (h : Nested v more top sub file) : v.ascending top = .ok outerNames := by
  unfold ascending
  rw [h.outer, except_ok_bind, List.mergeSort_of_pairwise (by decide)]
  rfl

theorem ascending_inner (h : Nested v more top sub file)
    (hs : (innerNames more).Pairwise fun a b => decide (a.rawName ≤ b.rawName) = true) :
    v.ascending sub = .ok (innerNames more) := by
  unfold ascending
  rw [h.inner, except_ok_bind, List.mergeSort_of_pairwise hs]
  rfl

/-- What is handed over of the root, `a`, and the file. -/
theorem children_a (h : Nested v more top sub file)
    (hs : (innerNames more).Pairwise fun a b => decide (a.rawName ≤ b.rawName) = true) :
    (v.tree v.ascending).children ([], ⟨[97], 17, .directory⟩) = .ok (placed ([97], innerNames more)) := by
  change (do let i ← v.inode 17; _) = _
  rw [h.below, except_ok_bind, h.ascending_inner hs]
  rfl

end Nested

open Graph in
/-- In the tree each name comes after the directory it is in; with the cycle it ends at the root's
name in `a`. -/
theorem walk_is_preorder_nested :
    (∃ out, (∃ n, ∀ fuel, n ≤ fuel → (nestedTree []).walkEach [] fuel = ⟨out, some (.ok ())⟩) ∧
      out.map (fun e => (e.rawPath, e.stat.inode)) =
        [([97], 17), ([97, SLASH, 99], 18), ([98], 18)] ∧
      ∀ e ∈ out, (nestedTree []).resolve (SLASH :: e.rawPath) false = .ok e.stat.inode) ∧
    ∃ out, (∃ n, ∀ fuel, n ≤ fuel → (nestedTree backName).walkEach [] fuel =
        ⟨out, some (.error (.corrupt s!"directory {16} reached twice"))⟩) ∧
      out.map (fun e => (e.rawPath, e.stat.inode)) =
        [([97], 17), ([97, SLASH, 99], 18), ([97, SLASH, 100], 16)] ∧
      ∀ e ∈ out, (nestedTree backName).resolve (SLASH :: e.rawPath) false = .ok e.stat.inode := by
  constructor
  · obtain ⟨top, sub, file, h⟩ := nested_tree
    have hok := h.namesOk (by decide) (by decide) (by decide)
    obtain ⟨out, r, -, hsole, -, hwalk, -, hres⟩ := walk_is_preorder h.walkTop h.ascending_outer hok
    have hsub := ino_of_inode h.below
    have hleaf := ino_of_inode h.leaf
    -- Into `a`, past its one name, and on to `b`.
    have hpre : Preorder ((nestedTree []).tree (nestedTree []).ascending) (placed ([], outerNames))
        [top.ino] _ _ :=
      .past (visit_of_ok h.below) (key_of_dir h.isDir.2.1)
        (by rw [hsub, ino_of_inode h.root]; decide)
        (h.children_a (by decide))
        (.plain (visit_of_ok h.leaf) (key_of_not_dir h.isDir.2.2) (.nil _))
        (.plain (visit_of_ok h.leaf) (key_of_not_dir h.isDir.2.2) (.nil _))
    obtain ⟨rfl, hr⟩ := hsole _ _ hpre
    rw [← hr] at hwalk
    refine ⟨_, hwalk, ?_, hres⟩
    simp [statInode, hsub, hleaf, addName]
  · obtain ⟨top, sub, file, h⟩ := nested_loop
    have hok := h.namesOk (by decide) (by decide) (by decide)
    obtain ⟨out, r, -, hsole, -, hwalk, -, hres⟩ := walk_is_preorder h.walkTop h.ascending_outer hok
    have hroot := ino_of_inode h.root
    have hsub := ino_of_inode h.below
    have hleaf := ino_of_inode h.leaf
    -- Into `a`, past its first name, and to the root again.
    have hpre : Preorder ((nestedTree backName).tree (nestedTree backName).ascending)
        (placed ([], outerNames)) [top.ino] _ _ :=
      .inside (visit_of_ok h.below) (key_of_dir h.isDir.2.1)
        (by rw [hsub, hroot]; decide)
        (h.children_a (by decide))
        (.plain (visit_of_ok h.leaf) (key_of_not_dir h.isDir.2.2)
          (.again (visit_of_ok h.root) (key_of_dir h.isDir.1) (by rw [hroot, hsub]; decide)))
    obtain ⟨rfl, hr⟩ := hsole _ _ hpre
    rw [← hr] at hwalk
    refine ⟨_, ?_, ?_, hres⟩
    · rw [hroot] at hwalk
      exact hwalk
    · simp [statInode, hroot, hsub, hleaf, addName]

end FioXfs.Volume
