import FioXfs.Dir.Names
import FioXfs.Export.HardLinks
set_option autoImplicit false

/-!
# Where a tree is extracted

A name with a slash in it is a path, and walks out of the directory it is in.  Without one, every
path of a walk is made of the components it came by, and what is extracted goes through
directories that have been made.  A regular file is still created at its path whatever is there,
also a symbolic link of the same name.
-/

namespace FioXfs.Volume

open FioXfs.Lib FioXfs.Dir

/-! ## Paths of a walk -/

/-- A single component, neither `.` nor `..`. -/
structure Plain (c : Bytes) : Prop where
  nonempty : c ≠ []
  slash : SLASH ∉ c
  dot : c ≠ DOT
  dotdot : c ≠ DOTDOT

/-- Components joined by slashes. -/
def joined (comps : List Bytes) : Bytes := [SLASH].intercalate comps

/-- A path of single components, none of them `.` or `..`. -/
def PlainPath (path : Bytes) : Prop :=
  ∃ comps, comps ≠ [] ∧ (∀ c ∈ comps, Plain c) ∧ path = joined comps

/-- Components below `dest`. -/
def below (dest : Bytes) (comps : List Bytes) : Bytes :=
  (if dest = [] ∨ dest.getLast? = some SLASH then dest else dest ++ [SLASH]) ++ joined comps

theorem joined_cons {c : Bytes} {cs : List Bytes} (h : cs ≠ []) :
    joined (c :: cs) = c ++ SLASH :: joined cs := by
  rw [joined, List.intercalate_cons_of_ne_nil h, List.append_assoc]
  rfl

theorem joined_ne_nil {comps : List Bytes} (h : ∀ c ∈ comps, Plain c) (hne : comps ≠ []) :
    joined comps ≠ [] := by
  obtain ⟨c, cs, rfl⟩ := List.exists_cons_of_ne_nil hne
  cases cs with
  | nil =>
    rw [joined, List.intercalate_singleton]
    exact (h c List.mem_cons_self).nonempty
  | cons d ds =>
    rw [joined_cons (List.cons_ne_nil d ds)]
    simp

/-- Adding a name adds a component. -/
theorem addName_joined {comps : List Bytes} (h : ∀ c ∈ comps, Plain c) (name : Bytes) :
    addName (joined comps) name = joined (comps ++ [name]) := by
  by_cases hne : comps = []
  · subst hne
    simp [addName, joined]
  · rw [addName, if_neg (joined_ne_nil h hne)]
    clear h
    induction comps with
    | nil => exact absurd rfl hne
    | cons c cs ih =>
      by_cases hcs : cs = []
      · subst hcs
        simp [joined, List.intercalate_cons_cons]
      · rw [joined_cons hcs, List.cons_append, joined_cons (by simp), ← ih hcs]
        simp

theorem head_joined {comps : List Bytes} (h : ∀ c ∈ comps, Plain c) :
    (joined comps).head? ≠ some SLASH := by
  cases comps with
  | nil => simp [joined]
  | cons c cs =>
    have hc := h c List.mem_cons_self
    obtain ⟨b, bs, rfl⟩ := List.exists_cons_of_ne_nil hc.nonempty
    have hb : b ≠ SLASH := fun heq => hc.slash (heq ▸ List.mem_cons_self)
    by_cases hcs : cs = []
    · subst hcs
      simpa [joined] using hb
    · rw [joined_cons hcs]
      simpa using hb

theorem joinTo_joined {comps : List Bytes} (h : ∀ c ∈ comps, Plain c) (dest : Bytes) :
    joinTo dest (joined comps) = below dest comps := by
  rw [joinTo, if_neg (head_joined h), below]
  split_ifs <;> rfl

/-! ## Names of directories -/

/-- A listed directory's names, none empty or with a slash in it. -/
def SoundDir (v : Volume) (i : Inode) : Prop :=
  ∀ names, v.dirEntries i = .ok names → ∀ e ∈ names, e.name ≠ [] ∧ SLASH ∉ e.name

/-- A directory a walk lists. -/
def Lists (v : Volume) (root : Bytes) (i : Inode) : Prop :=
  v.walkTop root = .ok i ∨
    ∃ e, v.Yields root e ∧ e.stat.isDir = true ∧ v.inode e.stat.inode = .ok i

/-- A directory's names are held in memory. -/
def HeldInMemory (v : Volume) (i : Inode) (names : List RawEntry) : Prop :=
  v.w.bind (·.cachedEntries i.ino) = some names

/-- A block of a directory, as it reads. -/
def BlockOfDir (v : Volume) (i : Inode) (buf : Bytes) : Prop :=
  ∃ extents per, v.extents i false = .ok extents ∧ shl64 1 v.sb.dirblkLog = .ok per ∧
    ∃ lblk ∈ dirBlocks per (LEAF_OFFSET >>> v.sb.blockLog) 0 extents,
      v.readMapped extents lblk per = .ok buf

/-- The parsers return no name with a slash in it for a directory, unless its names are held in
memory; then it is these that have none, and none of them is empty. -/
structure NamesSingle (v : Volume) (i : Inode) : Prop where
  held : ∀ names, v.HeldInMemory i names → ∀ e ∈ names, e.name ≠ [] ∧ SLASH ∉ e.name
  short : (∀ names, ¬v.HeldInMemory i names) → i.format = .local_ → ∀ parent names,
    parseShortform v.sb i.dataFork i.size = .ok (parent, names) → ∀ e ∈ names, SLASH ∉ e.name
  blocks : (∀ names, ¬v.HeldInMemory i names) → i.format ≠ .local_ → ∀ buf, v.BlockOfDir i buf →
    ∀ names, parseDataBlock v.sb buf i.ino = .ok names → ∀ e ∈ names, SLASH ∉ e.name

/-- No byte of a name stored in a directory is a slash, where the entries of the fork or the block it
is in are in order. -/
structure BytesSingle (v : Volume) (i : Inode) : Prop where
  held : ∀ names, v.HeldInMemory i names → ∀ e ∈ names, e.name ≠ [] ∧ SLASH ∉ e.name
  short : (∀ names, ¬v.HeldInMemory i names) → i.format = .local_ →
    ShortNames v.sb i.dataFork i.size (SLASH ∉ ·)
  blocks : (∀ names, ¬v.HeldInMemory i names) → i.format ≠ .local_ → ∀ buf, v.BlockOfDir i buf →
    BlockNames v.sb buf i.ino (SLASH ∉ ·)

section
variable {v : Volume}

theorem namesSingle_iff {i : Inode} : NamesSingle v i ↔ BytesSingle v i := by
  constructor
  · intro h
    exact ⟨h.held, fun hnot hlocal => shortNames_iff.mpr (h.short hnot hlocal),
      fun hnot hlocal buf hbuf => blockNames_iff.mpr (h.blocks hnot hlocal buf hbuf)⟩
  · intro h
    exact ⟨h.held, fun hnot hlocal => shortNames_iff.mp (h.short hnot hlocal),
      fun hnot hlocal buf hbuf => blockNames_iff.mp (h.blocks hnot hlocal buf hbuf)⟩

/-- A directory whose names are single components is listed as such. -/
theorem soundDir_of_namesSingle {i : Inode} (h : NamesSingle v i) : SoundDir v i := by
  intro names hnames
  obtain ⟨_, -, hnames⟩ := except_bind_eq_ok.mp hnames
  cases hheld : v.w.bind (·.cachedEntries i.ino) with
  | some held =>
    rw [hheld] at hnames
    cases hnames
    exact h.held _ hheld
  | none =>
    rw [hheld] at hnames
    have hnot : ∀ names, ¬v.HeldInMemory i names := fun names hn => by
      rw [HeldInMemory, hheld] at hn
      cases hn
    dsimp only at hnames
    split_ifs at hnames with hlocal
    · obtain ⟨⟨parent, listed⟩, hparse, hnames⟩ := except_bind_eq_ok.mp hnames
      cases hnames
      have hlisted : ∀ e ∈ listed, e.name ≠ [] ∧ SLASH ∉ e.name := fun e he =>
        ⟨ne_nil_of_parseShortform hparse e he, h.short hnot hlocal parent listed hparse e he⟩
      have hdots : (DOT ≠ [] ∧ SLASH ∉ DOT) ∧ DOTDOT ≠ [] ∧ SLASH ∉ DOTDOT := by decide
      exact List.forall_mem_cons.mpr ⟨hdots.1, List.forall_mem_cons.mpr ⟨hdots.2, hlisted⟩⟩
    · obtain ⟨extents, hextents, hnames⟩ := except_bind_eq_ok.mp hnames
      obtain ⟨per, hper, hnames⟩ := except_bind_eq_ok.mp hnames
      obtain ⟨blocks, hblocks, hnames⟩ := except_bind_eq_ok.mp hnames
      cases hnames
      have hall := @ensures_mapM _ _ _ (fun _ => False) _ _
        (fun names : List RawEntry => ∀ e ∈ names, e.name ≠ [] ∧ SLASH ∉ e.name)
        (fun lblk hlblk => ⟨fun _ _ => id, fun names hread e he => by
          obtain ⟨buf, hbuf, hparse⟩ := except_bind_eq_ok.mp hread
          have hblock : v.BlockOfDir i buf := ⟨extents, per, hextents, hper, lblk, hlblk, hbuf⟩
          exact ⟨ne_nil_of_parseDataBlock hparse e he,
            h.blocks hnot hlocal buf hblock names hparse e he⟩⟩)
      intro e he
      obtain ⟨names, hmem, he⟩ := List.mem_flatten.mp he
      exact hall.2 blocks hblocks names hmem e he

theorem mem_readEntries {es : List RawEntry} {out : List DirEntry} (h : v.readEntries es = .ok out) :
    ∀ d ∈ out, ∃ e ∈ es, e.name = d.rawName ∧ e.name ≠ DOT ∧ e.name ≠ DOTDOT := by
  induction es generalizing out with
  | nil =>
    cases h
    exact fun d hd => absurd hd List.not_mem_nil
  | cons e es ih =>
    intro d hd
    rw [readEntries] at h
    split_ifs at h with hdots
    · obtain ⟨e', he', hrest⟩ := ih h d hd
      exact ⟨e', List.mem_cons_of_mem _ he', hrest⟩
    · obtain ⟨kind, -, h⟩ := except_bind_eq_ok.mp h
      obtain ⟨rest, hrest, h⟩ := except_bind_eq_ok.mp h
      cases h
      rcases List.mem_cons.mp hd with rfl | hd
      · exact ⟨e, List.mem_cons_self, rfl, (not_or.mp hdots).1, (not_or.mp hdots).2⟩
      · obtain ⟨e', he', hnames⟩ := ih hrest d hd
        exact ⟨e', List.mem_cons_of_mem _ he', hnames⟩

theorem plain_of_sortedChildren {dir : Inode} {children : List DirEntry} (hs : SoundDir v dir)
    (h : v.sortedChildren dir = .ok children) : ∀ d ∈ children, Plain d.rawName := by
  obtain ⟨names, hnames, h⟩ := except_bind_eq_ok.mp h
  obtain ⟨raw, hraw, hnames⟩ := except_bind_eq_ok.mp hnames
  cases h
  intro d hd
  obtain ⟨e, he, heq, hdot, hdotdot⟩ := mem_readEntries hnames d (List.mem_mergeSort.mp hd)
  obtain ⟨hne, hslash⟩ := hs raw hraw e he
  rw [heq] at hne hslash hdot hdotdot
  exact ⟨hne, hslash, hdot, hdotdot⟩

/-! ## Where a walk's names are -/

/-- A path of directories handed over before. -/
def Through (before : List WalkEntry) (comps : List Bytes) : Prop :=
  comps ≠ [] → ∃ a ∈ before, a.stat.isDir = true ∧ a.rawPath = joined comps

/-- A name in directories handed over before it. -/
def Placed (before : List WalkEntry) (path : Bytes) : Prop :=
  ∃ comps name, (∀ c ∈ comps ++ [name], Plain c) ∧ path = joined (comps ++ [name]) ∧
    ∀ cs, cs <+: comps → Through before cs

/-- A directory of the stack, with its names still to come. -/
def FrameOk (before : List WalkEntry) (f : Frame) : Prop :=
  (∀ d ∈ f.2, Plain d.rawName) ∧ ∃ comps, (∀ c ∈ comps, Plain c) ∧ f.1 = joined comps ∧
    ∀ cs, cs <+: comps → Through before cs

variable {before : List WalkEntry}

theorem Through.mono {cs : List Bytes} (h : Through before cs) (after : List WalkEntry) :
    Through (before ++ after) cs := fun hne => by
  obtain ⟨a, ha, hrest⟩ := h hne
  exact ⟨a, List.mem_append_left _ ha, hrest⟩

theorem FrameOk.mono {f : Frame} (h : FrameOk before f) (after : List WalkEntry) :
    FrameOk (before ++ after) f := by
  obtain ⟨hnames, comps, hplain, hpath, hthrough⟩ := h
  exact ⟨hnames, comps, hplain, hpath, fun cs hcs => (hthrough cs hcs).mono after⟩

/-- The next name of a directory on the stack. -/
theorem FrameOk.placed {path : Bytes} {d : DirEntry} {rest : List DirEntry}
    (h : FrameOk before (path, d :: rest)) : Placed before (addName path d.rawName) := by
  obtain ⟨hnames, comps, hplain, hpath, hthrough⟩ := h
  refine ⟨comps, d.rawName, ?_, ?_, hthrough⟩
  · exact List.forall_mem_append.mpr ⟨hplain, by simpa using hnames d List.mem_cons_self⟩
  · rw [← addName_joined hplain, ← hpath]

theorem FrameOk.tail {path : Bytes} {d : DirEntry} {rest : List DirEntry}
    (h : FrameOk before (path, d :: rest)) : FrameOk before (path, rest) :=
  ⟨fun x hx => h.1 x (List.mem_cons_of_mem _ hx), h.2⟩

/-- A directory handed over goes on the stack. -/
theorem Placed.frame {e : WalkEntry} {children : List DirEntry} (h : Placed before e.rawPath)
    (hdir : e.stat.isDir = true) (hc : ∀ d ∈ children, Plain d.rawName) :
    FrameOk (before ++ [e]) (e.rawPath, children) := by
  obtain ⟨comps, name, hplain, hpath, hthrough⟩ := h
  refine ⟨hc, _, hplain, hpath, fun cs hcs => ?_⟩
  rcases List.prefix_concat_iff.mp hcs with rfl | hcs
  · exact fun _ => ⟨e, List.mem_append_right _ List.mem_cons_self, hdir, hpath⟩
  · exact (hthrough cs hcs).mono [e]

/-- A name at which a walk stops. -/
theorem FrameOk.placed_last {path : Bytes} {d : DirEntry} {rest : List DirEntry}
    (h : FrameOk before (path, d :: rest)) {item e : WalkEntry} {xs ys : List WalkEntry}
    (hpath : item.rawPath = addName path d.rawName) (heq : [item] = xs ++ e :: ys) :
    Placed (before ++ xs) e.rawPath := by
  cases xs with
  | nil =>
    obtain ⟨rfl, -⟩ := List.cons.inj heq
    rw [List.append_nil, hpath]
    exact h.placed
  | cons x xs => simp at heq

/-- A name after which a walk goes on. -/
theorem FrameOk.placed_cons {path : Bytes} {d : DirEntry} {rest : List DirEntry}
    (h : FrameOk before (path, d :: rest)) {item : WalkEntry} {out : List WalkEntry}
    (hpath : item.rawPath = addName path d.rawName)
    (hout : ∀ xs e ys, out = xs ++ e :: ys → Placed (before ++ [item] ++ xs) e.rawPath)
    {xs ys : List WalkEntry} {e : WalkEntry} (heq : item :: out = xs ++ e :: ys) :
    Placed (before ++ xs) e.rawPath := by
  cases xs with
  | nil =>
    obtain ⟨rfl, -⟩ := List.cons.inj heq
    rw [List.append_nil, hpath]
    exact h.placed
  | cons x xs =>
    rw [List.cons_append] at heq
    obtain ⟨rfl, hrest⟩ := List.cons.inj heq
    have := hout xs e ys hrest
    rwa [List.append_assoc] at this

/-- A walk over sound directories hands over names that are in place. -/
theorem placed_of_walkFrom {fuel : Nat} {stack : List Frame} {visited : List Nat}
    (hstack : ∀ f ∈ stack, FrameOk before f)
    (hsound : ∀ e ∈ (v.walkFrom fuel stack visited).out, e.stat.isDir = true →
      ∀ i, v.inode e.stat.inode = .ok i → SoundDir v i) :
    ∀ xs e ys, (v.walkFrom fuel stack visited).out = xs ++ e :: ys →
      Placed (before ++ xs) e.rawPath := by
  induction fuel, stack, visited using walkFrom.induct v generalizing before with
  | case1 => simp [walkFrom]
  | case2 => simp [walkFrom]
  | case3 fuel visited path stack ih =>
    rw [walkFrom] at hsound ⊢
    exact ih (fun f hf => hstack f (List.mem_cons_of_mem _ hf)) hsound
  | case4 fuel path entry rest stack visited err hi => simp [walkFrom, hi]
  | case5 fuel path entry rest stack visited i hi hdir hseen =>
    simp only [walkFrom, hi, hdir, if_true, if_pos hseen]
    exact fun xs e ys h => (hstack _ List.mem_cons_self).placed_last rfl h
  | case6 fuel path entry rest stack visited i hi hdir hseen err hc =>
    simp only [walkFrom, hi, hdir, if_true, if_neg hseen, hc]
    exact fun xs e ys h => (hstack _ List.mem_cons_self).placed_last rfl h
  | case7 fuel path entry rest stack visited i hi item hdir hseen children hc =>
    rename_i ih
    have htop := hstack _ List.mem_cons_self
    simp only [walkFrom, hi, hdir, if_true, if_neg hseen, hc, TreeWalk.after] at hsound ⊢
    refine fun xs e ys h => htop.placed_cons rfl (ih ?_ ?_) h
    · have hino : v.inode (statInode i).inode = .ok i :=
        (congrArg v.inode (ino_of_inode hi)).trans hi
      have hplain := plain_of_sortedChildren (hsound item List.mem_cons_self hdir i hino) hc
      have hnext : FrameOk (before ++ [item]) (item.rawPath, children.reverse) :=
        htop.placed.frame hdir fun d hd => hplain d (List.mem_reverse.mp hd)
      refine List.forall_mem_cons.mpr ⟨hnext, List.forall_mem_cons.mpr ⟨htop.tail.mono _, fun f hf => ?_⟩⟩
      exact (hstack f (List.mem_cons_of_mem _ hf)).mono _
    · exact fun e he => hsound e (List.mem_cons_of_mem _ he)
  | case8 fuel path entry rest stack visited i hi hdir ih =>
    have htop := hstack _ List.mem_cons_self
    simp only [walkFrom, hi, if_neg hdir, TreeWalk.after] at hsound ⊢
    refine fun xs e ys h => htop.placed_cons rfl (ih ?_ ?_) h
    · refine List.forall_mem_cons.mpr ⟨htop.tail.mono _, fun f hf => ?_⟩
      exact (hstack f (List.mem_cons_of_mem _ hf)).mono _
    · exact fun e he => hsound e (List.mem_cons_of_mem _ he)

theorem placed_of_walkEach {root : Bytes} {fuel : Nat} (h : ∀ i, v.Lists root i → SoundDir v i) :
    ∀ xs e ys, (v.walkEach root fuel).out = xs ++ e :: ys → Placed xs e.rawPath := by
  have hsound : ∀ e ∈ (v.walkEach root fuel).out, e.stat.isDir = true →
      ∀ i, v.inode e.stat.inode = .ok i → SoundDir v i := fun e he hdir i hi =>
    h i (Or.inr ⟨e, ⟨fuel, he⟩, hdir, hi⟩)
  unfold walkEach at hsound ⊢
  cases ht : v.walkTop root with
  | error err => simp
  | ok top =>
    rw [ht] at hsound
    dsimp only at hsound ⊢
    cases hc : v.sortedChildren top with
    | error err => simp
    | ok children =>
      rw [hc] at hsound
      dsimp only at hsound ⊢
      have hplain := plain_of_sortedChildren (h top (Or.inl ht)) hc
      have hframe : FrameOk [] ([], children.reverse) := by
        refine ⟨fun d hd => hplain d (List.mem_reverse.mp hd), [], by simp, rfl, fun cs hcs hne => ?_⟩
        exact absurd (List.prefix_nil.mp hcs) hne
      exact placed_of_walkFrom (List.forall_mem_singleton.mpr hframe) hsound

end

theorem Placed.plainPath {before : List WalkEntry} {path : Bytes} (h : Placed before path) :
    PlainPath path := by
  obtain ⟨comps, name, hplain, hpath, -⟩ := h
  exact ⟨_, by simp, hplain, hpath⟩

/-! ## What is done in place -/

/-- A path below `dest`, through directories that have been made. -/
def Inside (dest : Bytes) (h : Host) (path : Bytes) : Prop :=
  ∃ comps name, (∀ c ∈ comps ++ [name], Plain c) ∧ path = below dest (comps ++ [name]) ∧
    ∀ cs, cs <+: comps → cs ≠ [] → h (below dest cs) = some .dir

/-- An operation that acts below `dest` only. -/
structure InPlace (fs : LocalFs) (dest : Bytes) (h : Host) (op : HostOp) : Prop where
  paths : ∀ path ∈ op.paths, Inside dest h path
  /-- When the host does it, it is not led out by a symbolic link. -/
  target : (fs.perform h op).isSome → ∀ path, op.follows = some path → fs.follow h path ≠ none

/-- What the host does when asked one thing after another. -/
def performAll (fs : LocalFs) (h : Host) (ops : List HostOp) : Option Host :=
  ops.foldlM fs.perform h

/-- What is done at a path that has been made, or to make a file there. -/
def HostOp.Handles (path : Bytes) : HostOp → Prop
  | .createFile q | .setMode q _ | .lchown q _ _ | .write q _ | .finish q _ _ => q = path
  | _ => False

section
variable {fs : LocalFs} {dest : Bytes} {h h' : Host}

theorem HostOp.Handles.paths {path : Bytes} {op : HostOp} (hop : op.Handles path) :
    ∀ q ∈ op.paths, q = path := by
  intro q hq
  cases op with
  | createFile | setMode | lchown =>
    obtain rfl := List.mem_singleton.mp hq
    exact hop
  | write | finish => cases hq
  | _ => exact hop.elim

theorem HostOp.Handles.follows {path : Bytes} {op : HostOp} (hop : op.Handles path) {q : Bytes}
    (hq : op.follows = some q) : q = path := by
  cases op with
  | createFile | setMode =>
    cases hq
    exact hop
  | openDir => exact hop.elim
  | _ => cases hq

theorem Host.set_self (h : Host) (path : Bytes) (n : Node) : h.set path n path = some n := if_pos rfl

theorem Host.set_mono {path : Bytes} (hnone : h path = none) {q : Bytes} {n m : Node}
    (hq : h q = some m) : h.set path n q = some m := by
  have hne : q ≠ path := by
    rintro rfl
    rw [hnone] at hq
    cases hq
  rwa [set, if_neg hne]

/-- What the host does is what can be done. -/
theorem effect_of_perform {op : HostOp} (hop : fs.perform h op = some h') : fs.effect h op = some h' :=
  (Option.ite_none_left_eq_some.mp hop).2

/-- The host makes one thing where nothing was, or nothing. -/
theorem perform_cases {op : HostOp} (hop : fs.perform h op = some h') :
    h' = h ∨ ∃ path n, h path = none ∧ h' = h.set path n := by
  replace hop := effect_of_perform hop
  have hmade : ∀ {path : Bytes} {n : Node},
      (if (h path).isNone then some (h.set path n) else none) = some h' →
        h' = h ∨ ∃ path n, h path = none ∧ h' = h.set path n := fun {path n} heq => by
    obtain ⟨hnone, heq⟩ := Option.ite_none_right_eq_some.mp heq
    exact Or.inr ⟨path, n, Option.isNone_iff_eq_none.mp hnone, (Option.some.inj heq).symm⟩
  have hkept : ∀ {path : Bytes}, (if (h path).isNone then none else some h) = some h' →
      h' = h ∨ ∃ path n, h path = none ∧ h' = h.set path n := fun heq =>
    Or.inl (Option.some.inj (Option.ite_none_left_eq_some.mp heq).2).symm
  have hled : ∀ {path : Bytes} {mode : Nat}, fs.effect h (.setMode path mode) = some h' →
        h' = h ∨ ∃ path n, h path = none ∧ h' = h.set path n := fun {path mode} heq => by
    simp only [LocalFs.effect] at heq
    split at heq
    · exact Or.inl (Option.some.inj heq).symm
    · exact hkept heq
  cases op with
  | createDir path => exact hmade hop
  | symlink target path => exact hmade hop
  | setMode path mode => exact hled hop
  | openDir path mtime => exact @hled path 0 hop
  | lchown path uid gid => exact hkept hop
  | write path piece => exact Or.inl (Option.some.inj hop).symm
  | finish path size mtime => exact Or.inl (Option.some.inj hop).symm
  | createFile path =>
    simp only [LocalFs.effect] at hop
    split at hop
    · exact Or.inl (Option.some.inj hop).symm
    · split at hop
      · rename_i q _ _ hnone
        exact Or.inr ⟨q, .file, hnone, (Option.some.inj hop).symm⟩
      · exact Or.inl (Option.some.inj hop).symm
      · cases hop
  | hardLink first path =>
    simp only [LocalFs.effect] at hop
    split at hop
    · cases hop
    · cases hop
    · exact hmade hop

/-- What has been made stays as it is. -/
theorem perform_mono {op : HostOp} (hop : fs.perform h op = some h') {q : Bytes} {n : Node}
    (hq : h q = some n) : h' q = some n := by
  rcases perform_cases hop with rfl | ⟨path, m, hnone, rfl⟩
  · exact hq
  · exact Host.set_mono hnone hq

theorem performAll_cons {op : HostOp} {ops : List HostOp} : performAll fs h (op :: ops) = some h' ↔
    ∃ h1, fs.perform h op = some h1 ∧ performAll fs h1 ops = some h' :=
  Steps.foldlM_take_cons

/-- Steps are taken when what they ask for is done. -/
theorem foldlM_take_iff {xs : List (Nat × HostOp)} :
    xs.foldlM fs.take h = some h' ↔ performAll fs h (xs.map Prod.snd) = some h' := by
  rw [performAll, List.foldlM_map]
  rfl

theorem performAll_mono {ops : List HostOp} (hops : performAll fs h ops = some h') {q : Bytes}
    {n : Node} (hq : h q = some n) : h' q = some n := by
  induction ops generalizing h with
  | nil =>
    cases hops
    exact hq
  | cons op ops ih =>
    obtain ⟨h1, hop, hops⟩ := performAll_cons.mp hops
    exact ih hops (perform_mono hop hq)

theorem Inside.mono {path : Bytes} (hin : Inside dest h path)
    (hle : ∀ q n, h q = some n → h' q = some n) : Inside dest h' path := by
  obtain ⟨comps, name, hplain, hpath, hdirs⟩ := hin
  exact ⟨comps, name, hplain, hpath, fun cs hcs hne => hle _ _ (hdirs cs hcs hne)⟩

/-- A file made where a path leads. -/
theorem follow_set {path q : Bytes} (hf : fs.follow h path = some q) (hnone : h q = none) :
    fs.follow (h.set q .file) path = some q := by
  unfold LocalFs.follow at hf ⊢
  split at hf
  · rename_i target hlink
    rw [Host.set_mono hnone hlink]
    exact fs.stays h path target q hf
  · obtain rfl := Option.some.inj hf
    rw [Host.set_self]

/-- A path that is not led out is not led out after what is done at it. -/
theorem follow_perform {op : HostOp} {path : Bytes} (hop : fs.perform h op = some h')
    (hat : op.Handles path) (hf : fs.follow h path ≠ none) : fs.follow h' path ≠ none := by
  obtain ⟨q, hq⟩ := Option.ne_none_iff_exists'.mp hf
  replace hop := effect_of_perform hop
  cases op with
  | createFile p =>
    obtain rfl : p = path := hat
    simp only [LocalFs.effect, hq] at hop
    split at hop
    · rename_i hnone
      rw [← Option.some.inj hop, follow_set hq hnone]
      simp
    · rwa [← Option.some.inj hop]
    · cases hop
  | setMode p mode =>
    obtain rfl : p = path := hat
    simp only [LocalFs.effect, hq] at hop
    rwa [← Option.some.inj (Option.ite_none_left_eq_some.mp hop).2]
  | lchown p uid gid => rwa [← Option.some.inj (Option.ite_none_left_eq_some.mp hop).2]
  | write p piece => rwa [← Option.some.inj hop]
  | finish p size mtime => rwa [← Option.some.inj hop]
  | _ => exact hat.elim

/-! ## One name -/

/-- What is done at a path is done in place when the path is not led out, or nothing follows it. -/
theorem inPlace_at {path : Bytes} {ops : List HostOp} (hin : Inside dest h path)
    (hops : ∀ op ∈ ops, op.Handles path)
    (hf : fs.follow h path ≠ none ∨ ∀ op ∈ ops, op.follows = none)
    {pre post : List HostOp} {x : HostOp} {h1 : Host} (heq : ops = pre ++ x :: post)
    (hpre : performAll fs h pre = some h1) : InPlace fs dest h1 x := by
  subst heq
  induction pre generalizing h with
  | nil =>
    cases hpre
    have hx := hops x (by simp)
    refine ⟨fun q hq => hx.paths q hq ▸ hin, fun _ q hq => ?_⟩
    rcases hf with hf | hl
    · rwa [hx.follows hq]
    · rw [hl x (by simp)] at hq
      cases hq
  | cons op pre ih =>
    obtain ⟨h2, hop, hpre⟩ := performAll_cons.mp hpre
    have hmem : ∀ y ∈ pre ++ x :: post, y ∈ op :: pre ++ x :: post := fun y hy =>
      List.mem_cons_of_mem op hy
    refine ih (hin.mono fun q n => perform_mono hop) hpre (fun y hy => hops y (hmem y hy)) ?_
    exact hf.imp (follow_perform hop (hops op (by simp))) fun hl y hy => hl y (hmem y hy)

/-- What is done at a path after something has been made there. -/
theorem inPlace_made {path : Bytes} {made : HostOp} {ops : List HostOp} (hin : Inside dest h path)
    (hpaths : made.paths = [path])
    (htarget : (fs.perform h made).isSome → ∀ q, made.follows = some q → fs.follow h q ≠ none)
    (hops : ∀ op ∈ ops, op.Handles path)
    (hmade : (∀ h1, fs.perform h made = some h1 → fs.follow h1 path ≠ none) ∨
      ∀ op ∈ ops, op.follows = none)
    {pre post : List HostOp} {x : HostOp} {h1 : Host} (heq : made :: ops = pre ++ x :: post)
    (hpre : performAll fs h pre = some h1) : InPlace fs dest h1 x := by
  cases pre with
  | nil =>
    obtain ⟨rfl, -⟩ := List.cons.inj heq
    cases hpre
    refine ⟨fun q hq => ?_, htarget⟩
    rw [hpaths] at hq
    exact List.mem_singleton.mp hq ▸ hin
  | cons op pre =>
    rw [List.cons_append] at heq
    obtain ⟨rfl, hrest⟩ := List.cons.inj heq
    obtain ⟨h2, hop, hpre⟩ := performAll_cons.mp hpre
    exact inPlace_at (hin.mono fun q n => perform_mono hop) hops (hmade.imp_left fun hm => hm h2 hop)
      hrest hpre

variable {v : Volume} {owner : Bool} {s : ExtractState} {e : WalkEntry} {before : List WalkEntry}

theorem mem_setOwner {st : Stat} {path : Bytes} {op : HostOp} (hop : op ∈ setOwner owner st path) :
    op.Handles path ∧ op.follows = none := by
  unfold setOwner at hop
  split_ifs at hop
  · rw [List.mem_singleton.mp hop]
    exact ⟨rfl, rfl⟩
  · cases hop

/-- What is asked for a regular file, its creation first. -/
theorem extractOwn_file {i : Inode} {st : Stat} (hr : st.ftype = Mode.IFREG) (path : Bytes) :
    ∃ rest, (v.extractOwn owner i st path).done = .createFile path :: rest ∧
      ∀ op ∈ rest, op.Handles path := by
  have hne : Mode.IFREG ≠ Mode.IFDIR ∧ Mode.IFREG ≠ Mode.IFLNK := by decide
  rw [extractOwn, hr, if_neg hne.1, if_neg hne.2, if_pos rfl, Steps.andThen_of_none rfl]
  refine ⟨_, rfl, fun op hop => ?_⟩
  rcases Steps.mem_done_andThen hop with hop | hop
  · obtain ⟨piece, -, rfl⟩ := List.mem_map.mp hop
    exact rfl
  · simp only [List.mem_append, List.mem_singleton] at hop
    rcases hop with (rfl | hop) | rfl
    · exact rfl
    · exact (mem_setOwner hop).1
    · exact rfl

/-- A name of its own is extracted in place, unless a regular file's path is led out. -/
theorem inPlace_extractOwn {i : Inode} {st : Stat} {path : Bytes} (hin : Inside dest h path)
    (hf : st.ftype = Mode.IFREG → (fs.perform h (.createFile path)).isSome → fs.follow h path ≠ none)
    {pre post : List HostOp} {x : HostOp} {h1 : Host}
    (heq : (v.extractOwn owner i st path).done = pre ++ x :: post)
    (hpre : performAll fs h pre = some h1) : InPlace fs dest h1 x := by
  by_cases hr : st.ftype = Mode.IFREG
  · obtain ⟨rest, hdone, hrest⟩ := @extractOwn_file v owner i st hr path
    rw [hdone] at heq
    refine inPlace_made hin rfl (fun hsome q hq => ?_) hrest (Or.inl fun h2 hmade => ?_) heq hpre
    · cases hq
      exact hf hr hsome
    · exact follow_perform hmade rfl (hf hr (Option.isSome_iff_exists.mpr ⟨h2, hmade⟩))
  · unfold extractOwn at heq
    split_ifs at heq with hd hl
    · refine inPlace_made hin rfl (fun _ q hq => by cases hq) (fun op hop => ?_)
        (Or.inl fun h2 hmade => ?_) heq hpre
      · rcases List.mem_cons.mp hop with rfl | hop
        · exact rfl
        · exact (mem_setOwner hop).1
      · obtain ⟨-, heq⟩ := Option.ite_none_right_eq_some.mp (effect_of_perform hmade)
        rw [← Option.some.inj heq, LocalFs.follow, Host.set_self]
        simp
    · cases ht : v.symlinkTarget i with
      | error err =>
        rw [ht] at heq
        simp at heq
      | ok target =>
        rw [ht] at heq
        exact inPlace_made hin rfl (fun _ q hq => by cases hq) (fun op hop => (mem_setOwner hop).1)
          (Or.inr fun op hop => (mem_setOwner hop).2) heq hpre
    · simp at heq

/-- What extracting has made and keeps by the names before. -/
structure Made (dest : Bytes) (before : List WalkEntry) (s : ExtractState) (h : Host) : Prop where
  dirs : ∀ a ∈ before, a.stat.isDir = true → h (joinTo dest a.rawPath) = some .dir
  known : ∀ d ∈ s.dirs, ∃ a ∈ before, a.stat.isDir = true ∧ d.path = joinTo dest a.rawPath
  first : ∀ ino p, s.seen.lookup ino = some p → ∃ a ∈ before, p = joinTo dest a.rawPath

/-- Extracting `e` after other names makes a regular file of its own. -/
structure OwnFile (v : Volume) (before : List WalkEntry) (e : WalkEntry) : Prop where
  first : ¬SecondName before e
  regular : e.stat.ftype = Mode.IFREG
  reads : ∃ i, v.inode e.stat.inode = .ok i ∧ ∃ xattrs, v.packXattrs i e.stat = .ok xattrs

theorem inside_of_placed {path : Bytes} (hp : Placed before path)
    (hdirs : ∀ a ∈ before, a.stat.isDir = true → h (joinTo dest a.rawPath) = some .dir) :
    Inside dest h (joinTo dest path) := by
  obtain ⟨comps, name, hplain, rfl, hthrough⟩ := hp
  refine ⟨comps, name, hplain, joinTo_joined hplain dest, fun cs hcs hne => ?_⟩
  obtain ⟨a, ha, hdir, hpath⟩ := hthrough cs hcs hne
  have hcomps : ∀ c ∈ cs, Plain c := fun c hc =>
    hplain c (List.mem_append_left _ (hcs.subset hc))
  rw [← joinTo_joined hcomps, ← hpath]
  exact hdirs a ha hdir

theorem map_stepsFor (ino : Nat) (steps : Steps HostOp) :
    (stepsFor ino steps).done.map Prod.snd = steps.done := by
  rw [stepsFor, List.map_map]
  exact List.map_id _

/-- A name is extracted in place, unless it makes a regular file whose path is led out. -/
theorem inPlace_extractOne (hm : Made dest before s h)
    (hplaced : ∀ xs a ys, before ++ [e] = xs ++ a :: ys → Placed xs a.rawPath)
    (hf : firstSeen s.seen e.stat = none → e.stat.ftype = Mode.IFREG →
      (∃ i, v.inode e.stat.inode = .ok i ∧ ∃ xattrs, v.packXattrs i e.stat = .ok xattrs) →
      (fs.perform h (.createFile (joinTo dest e.rawPath))).isSome →
        fs.follow h (joinTo dest e.rawPath) ≠ none)
    {pre post : List (Nat × HostOp)} {x : Nat × HostOp} {h1 : Host}
    (heq : (v.extractOne owner dest s e).2.done = pre ++ x :: post)
    (hpre : performAll fs h (pre.map Prod.snd) = some h1) : InPlace fs dest h1 x.2 := by
  have hin : Inside dest h (joinTo dest e.rawPath) :=
    inside_of_placed (hplaced before e [] rfl) hm.dirs
  rcases extractOne_cases v owner dest s e with ⟨t, err, hone⟩ | ⟨p, hp, hone⟩ |
    ⟨hnone, i, hi, hx, hone⟩
  · rw [hone] at heq
    simp at heq
  · rw [hone] at heq
    obtain ⟨a, ha, rfl⟩ := hm.first _ _ (firstSeen_eq_some.mp hp).2
    obtain ⟨xs, ys, rfl⟩ := List.append_of_mem ha
    have hfirst : Inside dest h (joinTo dest a.rawPath) := by
      refine inside_of_placed (hplaced xs a (ys ++ [e]) (by simp)) fun b hb => ?_
      exact hm.dirs b (List.mem_append_left _ hb)
    cases pre with
    | nil =>
      obtain ⟨rfl, -⟩ := List.cons.inj heq
      cases hpre
      refine ⟨fun q hq => ?_, fun _ q hq => by cases hq⟩
      rcases List.mem_pair.mp hq with rfl | rfl
      · exact hfirst
      · exact hin
    | cons y pre => simp at heq
  · rw [hone] at heq
    obtain ⟨pre', rest, hdone, hpre', hrest⟩ := List.map_eq_append_iff.mp heq
    obtain ⟨op, post', rfl, rfl, -⟩ := List.map_eq_cons_iff.mp hrest
    have hops : pre.map Prod.snd = pre' := by
      rw [← hpre', List.map_map]
      exact List.map_id _
    refine inPlace_extractOwn hin (fun hr => hf hnone hr ⟨i, hi, hx⟩) hdone ?_
    rwa [hops] at hpre

/-- A regular file of its own is created first. -/
theorem createFile_of_extractOne (hnone : firstSeen s.seen e.stat = none) (ho : OwnFile v before e)
    (owner : Bool) (dest : Bytes) : ∃ rest, (v.extractOne owner dest s e).2.done =
      (e.stat.inode, .createFile (joinTo dest e.rawPath)) :: rest := by
  obtain ⟨i, hi, xattrs, hx⟩ := ho.reads
  obtain ⟨rest, hdone, -⟩ :=
    @extractOwn_file v owner i e.stat ho.regular (joinTo dest e.rawPath)
  simp only [extractOne, hi, hnone, hx, stepsFor, hdone]
  exact ⟨_, rfl⟩

/-- What a name adds. -/
theorem Made.step (hm : Made dest before s h) (herr : (v.extractOne owner dest s e).2.error = none)
    (hall : performAll fs h ((v.extractOne owner dest s e).2.done.map Prod.snd) = some h') :
    Made dest (before ++ [e]) (v.extractOne owner dest s e).1 h' := by
  have hkept : ∀ a ∈ before, a.stat.isDir = true → h' (joinTo dest a.rawPath) = some .dir :=
    fun a ha hdir => performAll_mono hall (hm.dirs a ha hdir)
  have hknown : ∀ d ∈ s.dirs, ∃ a ∈ before ++ [e], a.stat.isDir = true ∧
      d.2 = joinTo dest a.rawPath := fun d hd => by
    obtain ⟨a, ha, hrest⟩ := hm.known d hd
    exact ⟨a, List.mem_append_left _ ha, hrest⟩
  have hfirst : ∀ ino p, s.seen.lookup ino = some p → ∃ a ∈ before ++ [e],
      p = joinTo dest a.rawPath := fun ino p hp => by
    obtain ⟨a, ha, hrest⟩ := hm.first ino p hp
    exact ⟨a, List.mem_append_left _ ha, hrest⟩
  rcases extractOne_cases v owner dest s e with ⟨t, err, hone⟩ | ⟨p, hp, hone⟩ |
    ⟨hnone, i, -, -, hone⟩
  · rw [hone] at herr
    cases herr
  · rw [hone]
    refine ⟨List.forall_mem_append.mpr ⟨hkept, List.forall_mem_singleton.mpr fun hdir => ?_⟩, hknown,
      hfirst⟩
    have hnot := (firstSeen_eq_some.mp hp).1.1
    rw [hdir] at hnot
    cases hnot
  · rw [hone] at hall ⊢
    have hisDir : e.stat.isDir = true ↔ e.stat.ftype = Mode.IFDIR := beq_iff_eq
    have hself : e ∈ before ++ [e] := List.mem_append_right _ List.mem_cons_self
    refine ⟨List.forall_mem_append.mpr ⟨hkept, List.forall_mem_singleton.mpr fun hdir => ?_⟩, ?_, ?_⟩
    · rw [map_stepsFor, extractOwn, if_pos (hisDir.mp hdir)] at hall
      obtain ⟨h1, hmade, hall⟩ := performAll_cons.mp hall
      obtain ⟨-, hset⟩ := Option.ite_none_right_eq_some.mp (effect_of_perform hmade)
      refine performAll_mono hall ?_
      rw [← Option.some.inj hset, Host.set_self]
    · refine List.forall_mem_append.mpr ⟨hknown, fun d hd => ?_⟩
      split_ifs at hd with hdir
      · rw [List.mem_singleton.mp hd]
        exact ⟨e, hself, hisDir.mpr hdir, rfl⟩
      · cases hd
    · intro ino p hp
      dsimp only [nowSeen] at hp
      split_ifs at hp
      · by_cases hino : ino = e.stat.inode
        · subst hino
          rw [List.lookup_cons_self] at hp
          exact ⟨e, hself, (Option.some.inj hp).symm⟩
        · rw [List.lookup_cons, beq_eq_false_iff_ne.mpr hino] at hp
          exact hfirst ino p hp
      · exact hfirst ino p hp

/-- The directories made get their modes in place. -/
theorem inPlace_finishDirs {dirs : List MadeDir}
    (hdirs : ∀ d ∈ dirs, Inside dest h d.path ∧ h d.path = some .dir)
    {pre post : List (Nat × HostOp)} {x : Nat × HostOp} {h1 : Host}
    (heq : finishDirs dirs = pre ++ x :: post)
    (hpre : performAll fs h (pre.map Prod.snd) = some h1) : InPlace fs dest h1 x.2 := by
  have hmem : x ∈ finishDirs dirs := heq ▸ List.mem_append_right pre List.mem_cons_self
  obtain ⟨d, hd, hx⟩ := List.mem_flatMap.mp hmem
  obtain ⟨hin, hdir⟩ := hdirs d (List.mem_reverse.mp hd)
  have hin1 : Inside dest h1 d.path := hin.mono fun q n => performAll_mono hpre
  have hf : fs.follow h1 d.path ≠ none := by
    rw [LocalFs.follow, performAll_mono hpre hdir]
    simp
  simp only [List.mem_cons, List.not_mem_nil, or_false] at hx
  rcases hx with rfl | rfl
  · exact ⟨List.forall_mem_singleton.mpr hin1, fun _ q hq => Option.some.inj hq ▸ hf⟩
  · exact ⟨List.forall_mem_singleton.mpr hin1, fun _ q hq => Option.some.inj hq ▸ hf⟩

end

/-! ## A tree -/

section
variable {v : Volume} {root : Bytes} {owner : Bool} {dest : Bytes} {fs : LocalFs}

/-- Extracting comes to a name when the names before end well and the host does what they ask. -/
theorem past_extracting_iff {before : List WalkEntry} {h : Host} :
    (extracting v owner dest).Past fs.take Host.bare before h ↔
      (Steps.run (v.extractOne owner dest) ⟨[], []⟩ before).error = none ∧
        (Steps.run (v.extractOne owner dest) ⟨[], []⟩ before).done.foldlM fs.take Host.bare = some h :=
  @Exporter.past_iff _ _ _ _ (extracting v owner dest) ⟨[], []⟩ before fs.take Host.bare h rfl

theorem firstNames_extracting {before : List WalkEntry}
    (herr : (Steps.run (v.extractOne owner dest) ⟨[], []⟩ before).error = none) :
    FirstNames (fun e => joinTo dest e.rawPath) before
      (Steps.after (v.extractOne owner dest) ⟨[], []⟩ before).seen :=
  (@Exporter.first_made _ _ _ (extracting v owner dest) ⟨[], []⟩ before rfl herr).first

/-- What has been made when extracting comes to a name. -/
theorem made_of_past {before : List WalkEntry} {h : Host}
    (hp : (extracting v owner dest).Past fs.take Host.bare before h) :
    Made dest before (Steps.after (v.extractOne owner dest) ⟨[], []⟩ before) h := by
  obtain ⟨herr, htaken⟩ := past_extracting_iff.mp hp
  have hstep : ∀ as b t (xs : List (Nat × HostOp)),
      (∀ h, xs.foldlM fs.take Host.bare = some h → Made dest as t h) →
      (v.extractOne owner dest t b).2.error = none →
      ∀ h, (xs ++ (v.extractOne owner dest t b).2.done).foldlM fs.take Host.bare = some h →
        Made dest (as ++ [b]) (v.extractOne owner dest t b).1 h := by
    intro as b t xs hinv herr h hall
    obtain ⟨h1, hxs, hall⟩ := Steps.foldlM_take_append.mp hall
    exact (hinv h1 hxs).step herr (foldlM_take_iff.mp hall)
  exact Steps.after_invariant (fun h _ => ⟨by simp, by simp, by simp⟩) hstep herr h htaken

/-- No regular file is come to at a path that a symbolic link leads out of the destination, with a
host that creates the file there. -/
def NoneLedOut (v : Volume) (owner : Bool) (dest : Bytes) (fs : LocalFs) (es : List WalkEntry) :
    Prop :=
  ∀ before e after h, es = before ++ e :: after →
    (extracting v owner dest).Past fs.take Host.bare before h → OwnFile v before e →
      (fs.perform h (.createFile (joinTo dest e.rawPath))).isSome →
        ∀ target, h (joinTo dest e.rawPath) = some (.link target) →
          fs.leads h (joinTo dest e.rawPath) target ≠ none

theorem follow_ne_none {h : Host} {path : Bytes} : fs.follow h path ≠ none ↔
    ∀ target, h path = some (.link target) → fs.leads h path target ≠ none := by
  unfold LocalFs.follow
  constructor
  · intro hf target hlink
    rwa [hlink] at hf
  · intro hf
    split
    · rename_i target hlink
      exact hf target hlink
    · simp

/-- What is asked for a name that is come to is done in place. -/
theorem inPlace_run {es : List WalkEntry} (hplaced : ∀ xs e ys, es = xs ++ e :: ys → Placed xs e.rawPath)
    (hnone : NoneLedOut v owner dest fs es) {pre post : List (Nat × HostOp)} {x : Nat × HostOp}
    {h : Host} (heq : (Steps.run (v.extractOne owner dest) ⟨[], []⟩ es).done = pre ++ x :: post)
    (hpre : pre.foldlM fs.take Host.bare = some h) : InPlace fs dest h x.2 := by
  obtain ⟨as, b, cs, pre', post', rfl, herr, hb, rfl⟩ := Steps.exists_of_done heq
  obtain ⟨h0, has, hpre⟩ := Steps.foldlM_take_append.mp hpre
  have hp := past_extracting_iff.mpr ⟨herr, has⟩
  have hfirst := firstNames_extracting herr
  refine inPlace_extractOne (made_of_past hp) (fun xs a ys hxs => ?_) (fun hown hr hreads hsome => ?_)
    hb (foldlM_take_iff.mp hpre)
  · refine hplaced xs a (ys ++ cs) ?_
    rw [← List.singleton_append, ← List.append_assoc, hxs, List.append_assoc, List.cons_append]
  · exact follow_ne_none.mpr
      (hnone as b cs h0 rfl hp ⟨hfirst.firstSeen_none_iff.mp hown, hr, hreads⟩ hsome)

/-- What `extract` asks for is done in place. -/
theorem inPlace_extract {es : List WalkEntry}
    (hplaced : ∀ xs e ys, es = xs ++ e :: ys → Placed xs e.rawPath)
    (hnone : NoneLedOut v owner dest fs es) {pre post : List (Nat × HostOp)} {x : Nat × HostOp}
    {h : Host} (heq : (v.extractOps owner dest es).done = pre ++ x :: post)
    (hpre : pre.foldlM fs.take Host.bare = some h) : InPlace fs dest h x.2 := by
  unfold extractOps at heq
  cases herr : (Steps.run (v.extractOne owner dest) ⟨[], []⟩ es).error with
  | some err =>
    rw [Steps.andThen_of_some herr] at heq
    exact inPlace_run hplaced hnone heq hpre
  | none =>
    rw [Steps.andThen_of_none herr] at heq
    rcases append_eq_append_cons heq with ⟨rest, hrun, -⟩ | ⟨rest, rfl, hrest⟩
    · exact inPlace_run hplaced hnone hrun hpre
    · obtain ⟨h0, hes, hpre⟩ := Steps.foldlM_take_append.mp hpre
      have hm := made_of_past (past_extracting_iff.mpr ⟨herr, hes⟩)
      refine inPlace_finishDirs (fun d hd => ?_) hrest (foldlM_take_iff.mp hpre)
      obtain ⟨a, ha, hdir, hpath⟩ := hm.known d hd
      obtain ⟨xs, ys, rfl⟩ := List.append_of_mem ha
      rw [hpath]
      refine ⟨inside_of_placed (hplaced xs a ys rfl) fun b hb => ?_, hm.dirs a ha hdir⟩
      exact hm.dirs b (List.mem_append_left _ hb)

/-- The file of a name that is come to is asked for. -/
theorem createFile_of_past {before after : List WalkEntry} {e : WalkEntry} {h : Host}
    (hp : (extracting v owner dest).Past fs.take Host.bare before h) (ho : OwnFile v before e) :
    ∃ pre post, (v.extract owner dest fs Host.bare (before ++ e :: after)).done =
      pre ++ (e.stat.inode, .createFile (joinTo dest e.rawPath)) :: post ∧
        pre.foldlM fs.take Host.bare = some h := by
  obtain ⟨herr, htaken⟩ := past_extracting_iff.mp hp
  have hfirst := firstNames_extracting herr
  obtain ⟨rest, hcreate⟩ :=
    createFile_of_extractOne (hfirst.firstSeen_none_iff.mpr ho.first) ho owner dest
  obtain ⟨ys, hrun⟩ := @Steps.done_of_reached _ _ _ _ (v.extractOne owner dest) ⟨[], []⟩ before
    after e herr
  rw [hcreate] at hrun
  obtain ⟨zs, hops⟩ : ∃ zs, (v.extractOps owner dest (before ++ e :: after)).done =
      (Steps.run (v.extractOne owner dest) ⟨[], []⟩ (before ++ e :: after)).done ++ zs := by
    unfold extractOps
    cases herr : (Steps.run (v.extractOne owner dest) ⟨[], []⟩ (before ++ e :: after)).error with
    | some err => exact ⟨[], by rw [Steps.andThen_of_some herr, List.append_nil]⟩
    | none => exact ⟨_, by rw [Steps.andThen_of_none herr]⟩
  rw [hrun, List.append_assoc, List.append_assoc, List.cons_append] at hops
  obtain ⟨post, hdone⟩ := Steps.done_handed_iff.mpr ⟨⟨_, hops⟩, h, htaken⟩
  exact ⟨_, post, hdone, htaken⟩

end

/-- Every name of every directory a walk lists is a single component, every path it hands over is
made of such, and extracting acts below the destination only, whatever the host refuses, exactly
when no name stored in such a directory has a slash among its bytes, and extracting comes to no
regular file at the path of a symbolic link that leads out. -/
theorem extracts_inside_iff (v : Volume) (root : Bytes) (owner : Bool) (dest : Bytes)
    (fs : LocalFs) :
    ((∀ i, v.Lists root i → v.NamesSingle i) ∧ (∀ e, v.Yields root e → PlainPath e.rawPath) ∧
      ∀ es, v.Walks root es → ∀ pre x post h,
        (v.extract owner dest fs Host.bare es).done = pre ++ x :: post →
          pre.foldlM fs.take Host.bare = some h → InPlace fs dest h x.2) ↔
    (∀ i, v.Lists root i → v.BytesSingle i) ∧ ∀ es, v.Walks root es → NoneLedOut v owner dest fs es := by
  have hnames : (∀ i, v.Lists root i → v.NamesSingle i) ↔ ∀ i, v.Lists root i → v.BytesSingle i :=
    forall₂_congr fun i _ => namesSingle_iff
  rw [hnames]
  have hsound : (∀ i, v.Lists root i → v.BytesSingle i) → ∀ i, v.Lists root i → SoundDir v i :=
    fun h i hi => soundDir_of_namesSingle (namesSingle_iff.mpr (h i hi))
  constructor
  · rintro ⟨hbytes, -, hin⟩
    refine ⟨hbytes, fun es hes before e after h heq hp hown hsome => follow_ne_none.mp ?_⟩
    subst heq
    obtain ⟨pre, post, hdone, hpre⟩ := @createFile_of_past v owner dest fs before after e h hp hown
    exact (hin _ hes pre _ post h hdone hpre).target hsome _ rfl
  · rintro ⟨hbytes, hnone⟩
    refine ⟨hbytes, fun e he => ?_, fun es hes pre x post h heq hpre => ?_⟩
    · obtain ⟨fuel, he⟩ := he
      obtain ⟨xs, ys, hout⟩ := List.append_of_mem he
      exact (placed_of_walkEach (hsound hbytes) xs e ys hout).plainPath
    · obtain ⟨⟨post', hops⟩, -⟩ := Steps.done_handed_iff.mp ⟨post, heq⟩
      refine inPlace_extract (fun xs e ys hsplit => ?_) (hnone es hes) hops hpre
      obtain ⟨fuel, hwalk⟩ := hes
      refine @placed_of_walkEach v root fuel (hsound hbytes) xs e ys ?_
      rw [hwalk]
      exact hsplit

/-! ## Names that lead out -/

/-- A tree with the names `../x` and, twice, `a`: a symbolic link and a file. -/
def strayTree : List (Nat × (Nat → Bytes)) :=
  [(16, inlineInode (Mode.IFDIR + 0o755) 2 .local_
      (shortNames 16 [(ascii "a", 17), (ascii "a", 18), (ascii "../x", 19)])),
    (17, inlineInode Mode.IFREG 1 .extents []), (18, inlineInode Mode.IFLNK 1 .local_ (ascii "/x")),
    (19, inlineInode Mode.IFREG 1 .extents [])]

/-- Its names, as they are stored. -/
def strayNames : List DirEntry :=
  [⟨ascii "a", 17, .file⟩, ⟨ascii "a", 18, .symlink⟩, ⟨ascii "../x", 19, .file⟩]

/-- Its walk. -/
def strayEntries : List WalkEntry :=
  [⟨ascii "../x", ⟨19, 0, Mode.IFREG, 1, 0, 0, ⟨0, 0⟩, (0, 0)⟩⟩,
    ⟨ascii "a", ⟨18, 2, Mode.IFLNK, 1, 0, 0, ⟨0, 0⟩, (0, 0)⟩⟩,
    ⟨ascii "a", ⟨17, 0, Mode.IFREG, 1, 0, 0, ⟨0, 0⟩, (0, 0)⟩⟩]

/-- A path of single components has no `..` in it. -/
theorem PlainPath.dotdot {path : Bytes} (h : PlainPath path) : DOTDOT ∉ path.splitOn SLASH := by
  obtain ⟨comps, hne, hplain, rfl⟩ := h
  rw [joined, List.splitOn_intercalate SLASH (fun c hc => (hplain c hc).slash) hne]
  exact fun hmem => (hplain _ hmem).dotdot rfl

set_option maxRecDepth 100000 in
/-- One name leads out by itself, and a file is created through the symbolic link of its name. -/
theorem extracts_outside : ∃ v, openNorecovery (treeDevice strayTree) [] = .ok v ∧
    v.Walks [SLASH] strayEntries ∧ (∃ e, v.Yields [SLASH] e ∧ ¬PlainPath e.rawPath) ∧
    (v.extract false (ascii "out") plainFs Host.bare strayEntries).done =
      [(19, .createFile (ascii "out/../x")), (19, .finish (ascii "out/../x") 0 ⟨0, 0⟩),
        (19, .setMode (ascii "out/../x") 0), (18, .symlink (ascii "/x") (ascii "out/a")),
        (17, .createFile (ascii "out/a")), (17, .finish (ascii "out/a") 0 ⟨0, 0⟩),
        (17, .setMode (ascii "out/a") 0)] := by
  have hfacts : (treeDevice strayTree).size = 8192 ∧
      readSuper (treeDevice strayTree) = .ok treeSector ∧
      Superblock.parse treeSector = .ok treeSb ∧
      (((treeVolume strayTree).walkTop [SLASH]).toOption.map fun top =>
        ((treeVolume strayTree).readDirInode top, top.ino)) = some (.ok strayNames, 16) ∧
      ((treeVolume strayTree).walkFrom 5 [([], strayNames.reverse)] [16]).out = strayEntries ∧
      ((treeVolume strayTree).walkFrom 5 [([], strayNames.reverse)] [16]).ended = some (.ok ()) ∧
      ((treeVolume strayTree).extract false (ascii "out") plainFs Host.bare strayEntries).done =
        [(19, .createFile (ascii "out/../x")), (19, .finish (ascii "out/../x") 0 ⟨0, 0⟩),
          (19, .setMode (ascii "out/../x") 0), (18, .symlink (ascii "/x") (ascii "out/a")),
          (17, .createFile (ascii "out/a")), (17, .finish (ascii "out/a") 0 ⟨0, 0⟩),
          (17, .setMode (ascii "out/a") 0)] := by
    decide +kernel
  obtain ⟨hsize, hsuper, hparse, htop, hout, hended, hdone⟩ := hfacts
  have hopen : openNorecovery (treeDevice strayTree) [] = .ok (treeVolume strayTree) := by
    rw [openNorecovery, hsize, hsuper, except_ok_bind, hparse]
    rfl
  have hsorted : strayNames.Pairwise fun a b => decide (b.rawName ≤ a.rawName) = true := by decide
  have hwalk : (treeVolume strayTree).Walks [SLASH] strayEntries := by
    refine ⟨5, ?_⟩
    rw [walkEach_of_sorted htop hsorted]
    exact TreeWalk.ext hout hended
  refine ⟨_, hopen, hwalk, ⟨_, yields_of_walks hwalk _ List.mem_cons_self, fun h => ?_⟩, hdone⟩
  exact h.dotdot (by decide)

end FioXfs.Volume
