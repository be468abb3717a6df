import LunaOS.KernelHalf

/-! Many address spaces with one kernel half. A new space takes over the upper
entries of the current root, so the tables below them are shared; what is mapped
below such an entry is mapped for all, but an entry that a map adds to a root stays
in that root. -/
namespace LunaOS.SharedKernelHalf
open ByteMemory PageTables PointerTree PageTableTree PageMapping FrameExclusivity PageTranslation List
open BitVec hiding not_or
open UserspaceAllocator UserSpace KernelHalf
open BitmapAllocator (physicalAllocator)

/-- Physical memory and the roots of the spaces in it. -/
structure Spaces (σ : Type) where
  physical : Physical σ
  roots : List Addr

/-- What is done to the kernel half. -/
inductive Change where
  | create (current : Addr)
  | map (space virt phys : Addr) (flags : PagingFlags) (override : Bool)

/-- An address whose index in the root is one of the upper 256. -/
def KernelAddress (virt : Addr) : Prop := 256 ≤ (pml4Indexer virt).toNat

section Changes
variable {σ : Type}

def apply (alloc : FrameAllocator σ) (spaces : Spaces σ) : Change → Spaces σ
  | .create current =>
    let proc := constructProcess alloc spaces.physical current
    ⟨proc.physical, proc.pml4Physical :: spaces.roots⟩
  | .map space virt phys flags override =>
    { spaces with physical := pagingMapPageInSpace alloc spaces.physical virt phys space flags override }

/-- Every space translates every kernel address alike. -/
def KernelAgree (spaces : Spaces σ) : Prop :=
  ∀ first ∈ spaces.roots, ∀ second ∈ spaces.roots, ∀ virt, KernelAddress virt →
    resolve spaces.physical.mem first virt = resolve spaces.physical.mem second virt

/-- Spaces that exist, and kernel addresses with flags as every caller passes them. -/
def Admissible (spaces : Spaces σ) : Change → Prop
  | .create current => current ∈ spaces.roots
  | .map space virt _ flags _ => space ∈ spaces.roots ∧ KernelAddress virt ∧ PlainPagingFlags flags

/-- The frames that are drawn are not null. -/
def Supplied (alloc : FrameAllocator σ) (spaces : Spaces σ) : Change → Prop
  | .create _ => (alloc.allocatePage spaces.physical.frames).1 ≠ 0
  | .map space virt _ flags override =>
    MapDraws alloc spaces.physical virt space flags override fun _ _ frame => frame ≠ 0

/-- A map finds the entry of the root present, or there is no other space. -/
def Meets (spaces : Spaces σ) : Change → Prop
  | .create _ => True
  | .map space virt _ _ _ =>
    checkFlag (readEntry spaces.physical.mem (applyDirectmap space) (pml4Indexer virt)) pagetablePresent = true ∨
      ∀ other ∈ spaces.roots, other = space

/-- The spaces reached from one space by changes that meet the condition. -/
inductive Reached (alloc : LawfulAllocator σ) : Spaces σ → Prop
  | boot {st : Physical σ} {root : Frame} : TableTree st.mem root →
      TablesHeld alloc root st → Blank UpperHalf st.mem root →
      Reached alloc ⟨st, [root.val]⟩
  | step {spaces : Spaces σ} (change : Change) : Reached alloc spaces → Admissible spaces change →
      Supplied alloc spaces change → Meets spaces change →
      Reached alloc (apply alloc spaces change)

/-- Trees with one kernel half: they have their upper entries in common, and a table
outside the kernel half belongs to one of them only. -/
structure Shared (alloc : LawfulAllocator σ) (st : Physical σ) (roots : List Frame) : Prop where
  tree : ∀ root ∈ roots, TableTree st.mem root
  held : ∀ root ∈ roots, TablesHeld alloc root st
  blank : ∀ root ∈ roots, Blank UpperHalf st.mem root
  agree : ∀ first ∈ roots, ∀ second ∈ roots, ∀ key : Key, 256 ≤ key.toNat →
    child st.mem first key = child st.mem second key
  apart : ∀ first ∈ roots, ∀ second ∈ roots, first ≠ second → ∀ path table, path.length ≤ 3 →
    ¬ UpperHalf path → descend (child st.mem) first path = some table →
    ¬ Table st.mem second table

variable {alloc : LawfulAllocator σ} {st after : Physical σ} {roots : List Frame} {mem : Memory}

theorem Shared.single {root : Frame} (tree : TableTree st.mem root) (held : TablesHeld alloc root st)
    (blank : Blank UpperHalf st.mem root) : Shared alloc st [root] := by
  refine ⟨by simpa using tree, by simpa using held, by simpa using blank, ?_, ?_⟩
  · intro first firstIn second secondIn key _
    rw [mem_singleton.mp firstIn, mem_singleton.mp secondIn]
  · intro first firstIn second secondIn differ
    exact absurd ((mem_singleton.mp firstIn).trans (mem_singleton.mp secondIn).symm) differ

/-- Spaces with the same upper entries have the same kernel half. -/
theorem descend_upper {first second : Frame}
    (agree : ∀ key : Key, 256 ≤ key.toNat → child mem first key = child mem second key)
    (upper : UpperHalf path) : descend (child mem) first path = descend (child mem) second path := by
  cases path with
  | nil => cases upper
  | cons key rest =>
    have step : ∀ root, descend (child mem) root (key :: rest) =
        (child mem root key).bind fun node => descend (child mem) node rest := fun _ => rfl
    rw [step, step, agree key upper]

theorem kernelAddress_iff : KernelAddress virt ↔ 256 ≤ (pml4Key virt).toNat := by
  have small := (pml4Key virt).isLt
  rw [KernelAddress, pml4Indexer_key, toNat_setWidth, Nat.mod_eq_of_lt (by omega)]

/-- The processor sees of a root entry whether it is present and where it points. -/
theorem resolve_agree {first second : Frame}
    (same : child mem first (pml4Key virt) = child mem second (pml4Key virt)) :
    resolve mem first.val virt = resolve mem second.val virt := by
  simp only [resolve, pml4Indexer_key, readEntry_directmap]
  cases top : checkFlag (entryAt mem first (pml4Key virt)) pagetablePresent with
  | false =>
    rw [child_of_absent top, child, eq_comm, ite_eq_right_iff] at same
    have absent : checkFlag (entryAt mem second (pml4Key virt)) pagetablePresent = false := by
      rw [← Bool.not_eq_true]
      intro present
      cases same present
    simp only [absent, Bool.not_false, if_true]
  | true =>
    rw [child_of_present top, child] at same
    split at same
    · rename_i present
      have frame : addressExclude (entryAt mem first (pml4Key virt)) =
          addressExclude (entryAt mem second (pml4Key virt)) :=
        congrArg Subtype.val (Option.some.inj same)
      simp only [present, frame]
    · cases same

theorem Shared.kernelAgree (shared : Shared alloc st roots) : KernelAgree ⟨st, roots.map Subtype.val⟩ := by
  intro first firstRoot second secondRoot virt kernel
  obtain ⟨one, oneRoot, rfl⟩ := mem_map.mp firstRoot
  obtain ⟨two, twoRoot, rfl⟩ := mem_map.mp secondRoot
  exact resolve_agree (shared.agree one oneRoot two twoRoot _ (kernelAddress_iff.mp kernel))

/-- A frame that is no table of a space keeps its entries when only that space is written. -/
theorem entryAt_foreign {before : Memory} {root frame : Frame}
    (outside : ∀ address, (∀ table, Table mem root table → 4096 ≤ (address - table.val).toNat) →
      mem address = before address)
    (foreign : ¬ Table mem root frame) (key : Key) : entryAt mem frame key = entryAt before frame key := by
  unfold entryAt
  refine load64_congr fun offset inside => outside _ fun table reached => slot_outside ?_ key offset inside
  rintro rfl
  exact foreign reached

/-- The tables that belong to other spaces than `space` alone. -/
def Private (mem : Memory) (roots : List Frame) (space table : Frame) : Prop :=
  ∃ root ∈ roots, root ≠ space ∧ ∃ path, path.length ≤ 3 ∧ ¬ UpperHalf path ∧
    descend (child mem) root path = some table

theorem Shared.spared (shared : Shared alloc st roots) (member : space ∈ roots) :
    Spared alloc space (Private st.mem roots space) st := by
  rintro table ⟨root, rootMember, differ, path, short, lower, reached⟩
  exact ⟨(shared.held root rootMember).held table ⟨path, short, reached⟩,
    shared.apart root rootMember space member differ path table short lower reached⟩

theorem upper_along (kernel : KernelAddress virt) (along : probe <+: pagePath virt) (nonempty : probe ≠ []) :
    UpperHalf probe := by
  cases probe with
  | nil => exact absurd rfl nonempty
  | cons first rest =>
    have same : first = pml4Key virt := (cons_prefix_cons.mp along).1
    rw [same]
    exact kernelAddress_iff.mp kernel

/-- What a map below the kernel half of one space does. -/
theorem Shared.maps (low : LowReserve alloc) (shared : Shared alloc st roots)
    (member : space ∈ roots) (kernel : KernelAddress virt) (plain : PlainPagingFlags flags)
    (draws : MapDraws alloc st virt space.val flags override fun _ _ frame => frame ≠ 0) (phys : Addr) :
    let mapped := pagingMapPageInSpace alloc st virt phys space.val flags override
    Maps st.mem mapped.mem space virt (0 ||| flags.ptFlags ||| phys) override ∧
      Blank UpperHalf mapped.mem space ∧ TablesHeld alloc space mapped ∧
      Spared alloc space (Private st.mem roots space) mapped :=
  map_maps (spared_supports low (fun _ along nonempty => upper_along kernel along nonempty) _)
    ⟨shared.blank space member, shared.held space member, shared.spared member⟩ (shared.tree space member)
    plain draws phys

theorem lower_front (lower : ¬ UpperHalf (path ++ [key])) : ¬ UpperHalf path := by
  intro upper
  cases path with
  | nil => cases upper
  | cons first rest => exact lower upper

/-- Entries outside the kernel half decide the paths outside of it. -/
theorem descend_lower {before : Memory} {root : Frame}
    (kept : KeptOff UpperHalf before mem root)
    (path : List Key) (short : path.length ≤ 3) (lower : ¬ UpperHalf path) :
    descend (child mem) root path = descend (child before) root path := by
  induction path using List.reverseRecOn with
  | nil => rw [descend_nil, descend_nil]
  | append_singleton path key ih =>
    rw [length_append, length_singleton] at short
    rw [descend_snoc, descend_snoc, ih (by omega) (lower_front lower)]
    cases reached : descend (child before) root path with
    | none => rw [Option.bind_none, Option.bind_none]
    | some table => simp only [Option.bind_some, child, kept path table key (by omega) reached lower]

section Mapped
variable {space root : Frame} {virt : Addr} {entry : BitVec 64} {override : Bool}

section Kept
variable (maps : Maps st.mem after.mem space virt entry override)
include maps

/-- The roots of the other spaces are left alone. -/
theorem root_kept (spared : Spared alloc space (Private st.mem roots space) after)
    (member : root ∈ roots) (differ : root ≠ space) (key : Key) :
    entryAt after.mem root key = entryAt st.mem root key :=
  entryAt_foreign maps.outside (spared root ⟨root, member, differ, [], Nat.zero_le _, id, rfl⟩).2 key

/-- A map below a present entry leaves the pointers of its root alone. -/
theorem top_kept (present : child st.mem space (pml4Key virt) ≠ none) (key : Key) :
    child after.mem space key = child st.mem space key := by
  by_cases here : key = pml4Key virt
  · subst here
    obtain ⟨table, found⟩ := Option.ne_none_iff_exists'.mp present
    have reached : descend (child st.mem) space [pml4Key virt] = some table := by
      simp [descend, found]
    have grown := maps.grown [pml4Key virt] table (by simp) reached
    rw [found]
    simpa [descend] using grown
  · have away : ¬ [] ++ [key] <+: pagePath virt := by
      intro along
      exact here (cons_prefix_cons.mp along).1
    simp only [child, maps.kept [] space key (Nat.zero_le _) rfl away]

end Kept

/-- The upper entries stay the same everywhere. -/
theorem Shared.mapped_agree (shared : Shared alloc st roots) (spaceMember : space ∈ roots)
    (maps : Maps st.mem after.mem space virt entry override)
    (spared : Spared alloc space (Private st.mem roots space) after)
    (meets : child st.mem space (pml4Key virt) ≠ none ∨ ∀ other ∈ roots, other = space)
    (member : root ∈ roots) (key : Key) (upper : 256 ≤ key.toNat) :
    child after.mem root key = child after.mem space key := by
  by_cases same : root = space
  · rw [same]
  · rcases meets with present | single
    · rw [top_kept maps present, ← shared.agree root member space spaceMember key upper]
      simp only [child, root_kept maps spared member same]
    · exact absurd (single root member) same

/-- A tree whose kernel half is that of another tree, over private tables that did not change. -/
theorem mapped_tree (tree : TableTree st.mem root) (other : TableTree after.mem space)
    (upper : ∀ path, UpperHalf path → descend (child after.mem) root path = descend (child after.mem) space path)
    (lower : ∀ path, path.length ≤ 3 → ¬ UpperHalf path →
      descend (child after.mem) root path = descend (child st.mem) root path)
    (foreign : ∀ path table, path.length ≤ 3 → ¬ UpperHalf path →
      descend (child after.mem) root path = some table → ¬ Table after.mem space table)
    (kept : ∀ path table, path.length ≤ 3 → ¬ UpperHalf path → descend (child st.mem) root path = some table →
      ∀ key, entryAt after.mem table key = entryAt st.mem table key) : TableTree after.mem root := by
  constructor
  · intro first second table firstShort secondShort here there
    by_cases firstUpper : UpperHalf first <;> by_cases secondUpper : UpperHalf second
    · rw [upper first firstUpper] at here
      rw [upper second secondUpper] at there
      exact other.unshared first second table firstShort secondShort here there
    · rw [upper first firstUpper] at here
      exact absurd ⟨first, firstShort, here⟩ (foreign second table secondShort secondUpper there)
    · rw [upper second secondUpper] at there
      exact absurd ⟨second, secondShort, there⟩ (foreign first table firstShort firstUpper here)
    · rw [lower first firstShort firstUpper] at here
      rw [lower second secondShort secondUpper] at there
      exact tree.unshared first second table firstShort secondShort here there
  · intro path table nonempty short reached key
    by_cases inside : UpperHalf path
    · rw [upper path inside] at reached
      exact other.small path table nonempty short reached key
    · rw [lower path (by omega) inside] at reached
      rw [kept path table (by omega) inside reached key]
      exact tree.small path table nonempty short reached key

/-- One space is new or was written, and the others keep what is theirs alone: they have one
kernel half if the upper entries agree. -/
theorem Shared.replaced (shared : Shared alloc st roots) {all : List Frame}
    (old : ∀ root ∈ all, root ≠ space → root ∈ roots) (tree : TableTree after.mem space)
    (held : TablesHeld alloc space after) (blank : Blank UpperHalf after.mem space)
    (spared : Spared alloc space (Private st.mem roots space) after)
    (kept : ∀ table, Private st.mem roots space table → ∀ key, entryAt after.mem table key = entryAt st.mem table key)
    (agree : ∀ root ∈ all, ∀ key : Key, 256 ≤ key.toNat →
      child after.mem root key = child after.mem space key) : Shared alloc after all := by
  have upper : ∀ root ∈ all, ∀ path, UpperHalf path →
      descend (child after.mem) root path = descend (child after.mem) space path :=
    fun root member path inside => descend_upper (agree root member) inside
  have lower : ∀ root ∈ all, root ≠ space → ∀ path, path.length ≤ 3 → ¬ UpperHalf path →
      descend (child after.mem) root path = descend (child st.mem) root path :=
    fun root member differ => descend_lower fun probe _ key short reached outside =>
      kept _ ⟨root, old root member differ, differ, probe, short, lower_front outside, reached⟩ key
  have foreign : ∀ root ∈ all, root ≠ space → ∀ path table, path.length ≤ 3 → ¬ UpperHalf path →
      descend (child after.mem) root path = some table → Private st.mem roots space table := by
    intro root member differ path table short outside reached
    rw [lower root member differ path short outside] at reached
    exact ⟨root, old root member differ, differ, path, short, outside, reached⟩
  refine ⟨fun root member => ?_, fun root member => ?_, fun root member => ?_, ?_, ?_⟩
  · by_cases same : root = space
    · exact same ▸ tree
    · exact mapped_tree (shared.tree root (old root member same)) tree (upper root member) (lower root member same)
        (fun path table short outside reached =>
          (spared table (foreign root member same path table short outside reached)).2)
        fun path table short outside reached =>
          kept table ⟨root, old root member same, same, path, short, outside, reached⟩
  · by_cases same : root = space
    · exact same ▸ held
    · refine ⟨held.sound, ?_⟩
      rintro table ⟨path, short, reached⟩
      by_cases inside : UpperHalf path
      · rw [upper root member path inside] at reached
        exact held.held table ⟨path, short, reached⟩
      · exact (spared table (foreign root member same path table short inside reached)).1
  · by_cases same : root = space
    · exact same ▸ blank
    · intro probe table slot short reached inside absent
      cases probe with
      | nil =>
        cases reached
        rw [kept root ⟨root, old root member same, same, [], short, id, rfl⟩] at absent ⊢
        exact shared.blank root (old root member same) [] root slot short rfl inside absent
      | cons first rest =>
        rw [upper root member (first :: rest) inside] at reached
        exact blank (first :: rest) table slot short reached inside absent
  · exact fun first firstMember second secondMember key high =>
      (agree first firstMember key high).trans (agree second secondMember key high).symm
  · rintro first firstMember second secondMember differ path table short outside reached ⟨probe, shortProbe, there⟩
    by_cases same : first = space
    · subst same
      by_cases inside : UpperHalf probe
      · rw [upper second secondMember probe inside] at there
        rw [tree.unshared path probe table short shortProbe reached there] at outside
        exact outside inside
      · exact (spared table (foreign second secondMember differ.symm probe table shortProbe inside there)).2
          ⟨path, short, reached⟩
    · have away := (spared table (foreign first firstMember same path table short outside reached)).2
      by_cases inside : UpperHalf probe ∨ second = space
      · refine away ⟨probe, shortProbe, ?_⟩
        rcases inside with inside | rfl
        · rw [← upper second secondMember probe inside, there]
        · exact there
      · obtain ⟨inside, other⟩ := not_or.mp inside
        rw [lower first firstMember same path short outside] at reached
        rw [lower second secondMember other probe shortProbe inside] at there
        exact shared.apart first (old first firstMember same) second (old second secondMember other) differ
          path table short outside reached ⟨probe, shortProbe, there⟩

end Mapped

section Created
variable {current root : Frame}

/-- A space whose entries did not change. -/
structure Unchanged (before mem : Memory) (root : Frame) : Prop where
  tree : TableTree mem root
  tables : ∀ table, Table mem root table ↔ Table before root table
  paths : ∀ path, path.length ≤ 3 → descend (child mem) root path = descend (child before) root path
  entries : ∀ table, Table before root table → ∀ key, entryAt mem table key = entryAt before table key

theorem unchanged_of_entries {before : Memory} (tree : TableTree before root)
    (entries : ∀ table, Table before root table → ∀ key, entryAt mem table key = entryAt before table key) :
    Unchanged before mem root := by
  obtain ⟨tree, tables, paths, -⟩ := tree_congr entries tree
  exact ⟨tree, tables, paths, entries⟩

/-- Below a new root there is only the kernel half. -/
theorem created_lower (empty : ∀ key : Key, key.toNat < 256 → child mem root key = none)
    (lower : ¬ UpperHalf path) (reached : descend (child mem) root path = some table) : path = [] := by
  cases path with
  | nil => rfl
  | cons key rest =>
    have step : descend (child mem) root (key :: rest) =
        (child mem root key).bind fun node => descend (child mem) node rest := rfl
    rw [step, empty key (Nat.not_le.mp lower)] at reached
    cases reached

/-- A new space shares the kernel half of the others. -/
theorem Shared.created (shared : Shared alloc st roots) (member : current ∈ roots)
    (drawn : (alloc.allocatePage st.frames).1 = root.val) (nonzero : root.val ≠ 0) :
    Shared alloc (constructProcess alloc st current.val).physical (root :: roots) := by
  have fresh : ∀ other ∈ roots, ¬ Table st.mem other root :=
    fun other inList => (drawn_fresh (shared.held other inList) drawn nonzero).1
  have differ := (drawn_fresh (shared.held current member) drawn nonzero).2
  obtain ⟨others, own⟩ := construct_entries differ drawn
  have stale : Blank (fun path => UpperHalf path ∧ ¬ UserHalf path) st.mem current :=
    fun probe table slot short reached inside => shared.blank current member probe table slot short reached inside.1
  have ownPages := (construct_own (shared.tree current member) (shared.held current member) stale drawn nonzero).2
  have taken := alloc.taken _ (shared.held current member).sound (by rw [drawn]; exact nonzero)
  rw [← construct_frames alloc st current.val] at taken
  generalize (constructProcess alloc st current.val).physical = made
    at others own ownPages taken ⊢
  have unchanged : ∀ other ∈ roots, Unchanged st.mem made.mem other := by
    intro other inList
    refine unchanged_of_entries (shared.tree other inList) fun table reached key => others table key ?_
    rintro rfl
    exact fresh other inList reached
  have empty : ∀ key : Key, key.toNat < 256 → child made.mem root key = none := by
    intro key low
    refine child_of_absent ?_
    rw [own key, if_neg (Nat.not_le.mpr low)]
    rfl
  have adopted : ∀ key : Key, 256 ≤ key.toNat → child made.mem root key = child made.mem current key := by
    intro key high
    simp only [child, own key, if_pos high, others current key differ.symm]
  refine shared.replaced (fun other inList new => (mem_cons.mp inList).resolve_left new) ownPages.tree ownPages.held
    ownPages.blank ?_ ?_ ?_
  · rintro table ⟨other, inList, _, path, short, lower, reached⟩
    refine ⟨(taken _).mpr (.inl ((shared.held other inList).held table ⟨path, short, reached⟩)), ?_⟩
    rintro ⟨probe, shortProbe, found⟩
    by_cases inside : UpperHalf probe
    · rw [descend_upper adopted inside, (unchanged current member).paths probe shortProbe] at found
      by_cases same : other = current
      · rw [same] at reached
        rw [(shared.tree current member).unshared path probe table short shortProbe reached found] at lower
        exact lower inside
      · exact shared.apart other inList current member same path table short lower reached ⟨probe, shortProbe, found⟩
    · cases created_lower empty inside found
      cases found
      exact fresh other inList ⟨path, short, reached⟩
  · rintro table ⟨other, inList, _, path, short, _, reached⟩ key
    exact (unchanged other inList).entries table ⟨path, short, reached⟩ key
  · intro other inList key high
    rcases mem_cons.mp inList with rfl | inList
    · rfl
    · rw [adopted key high]
      have agree := shared.agree other inList current member key high
      simpa only [child, (unchanged _ inList).entries other ⟨[], Nat.zero_le _, rfl⟩,
        (unchanged _ member).entries current ⟨[], Nat.zero_le _, rfl⟩] using agree

end Created

/-- The address of the same page in the upper half of the canonical addresses. -/
def raised (virt : Addr) : Addr := virt ||| 0xffff000000000000

theorem raised_key (virt : Addr) (low : shift ≤ 39) :
    (raised virt).extractLsb' shift 9 = virt.extractLsb' shift 9 := by
  have mask : ∀ index : Fin 48, (0xffff000000000000 : BitVec 64).getLsbD index = false := by decide
  apply eq_of_getLsbD_eq
  intro index bound
  have clear := mask ⟨shift + index, by omega⟩
  simp only [raised, getLsbD_extractLsb', getLsbD_or, clear, Bool.or_false]

theorem raised_path (virt : Addr) : tablePath (raised virt) = tablePath virt ∧ ptKey (raised virt) = ptKey virt :=
  ⟨by simp only [tablePath, pml4Key, pdptKey, pdKey, raised_key virt (Nat.le_refl 39), raised_key virt
    (show 30 ≤ 39 by decide), raised_key virt (show 21 ≤ 39 by decide)], raised_key virt (by decide)⟩

theorem raised_canonical (kernel : KernelAddress virt) : canonical (raised virt) = true := by
  have bit : virt.getLsbD 47 = true := by
    have upper := kernelAddress_iff.mp kernel
    have top : (pml4Key virt).getLsbD 8 = true := by
      rw [BitVec.getLsbD, Nat.testBit_eq_decide_div_mod_eq]
      simp only [decide_eq_true_eq]
      omega
    simpa [pml4Key] using top
  have same : raised virt = virt ||| 0xffff800000000000 := by
    have masks : ∀ index : Fin 64, index.val ≠ 47 →
        (0xffff000000000000 : BitVec 64).getLsbD index = (0xffff800000000000 : BitVec 64).getLsbD index := by
      decide
    apply eq_of_getLsbD_eq
    intro index bound
    by_cases here : index = 47
    · subst here
      simp only [raised, getLsbD_or, bit, Bool.true_or]
    · simp only [raised, getLsbD_or, masks ⟨index, bound⟩ here]
  have above : (0xffff800000000000 : BitVec 64) ≤ raised virt := by
    rw [same, le_def, toNat_or]
    exact Nat.right_le_or
  simp only [canonical, above, decide_true, Bool.or_true]

/-- An entry that a map adds to one root makes the spaces differ. -/
theorem Shared.split {space other : Frame} {virt : Addr} (shared : Shared alloc st roots)
    (spaceMember : space ∈ roots) (kernel : KernelAddress virt)
    (maps : Maps st.mem after.mem space virt entry override)
    (spared : Spared alloc space (Private st.mem roots space) after)
    (absent : child st.mem space (pml4Key virt) = none) (member : other ∈ roots) (differ : other ≠ space) :
    ¬ KernelAgree ⟨after, roots.map Subtype.val⟩ := by
  intro agree
  obtain ⟨samePath, sameKey⟩ := raised_path virt
  have top : pml4Key (raised virt) = pml4Key virt := raised_key virt (Nat.le_refl 39)
  have upper := kernelAddress_iff.mp kernel
  have same := agree space.val (mem_map_of_mem spaceMember) other.val (mem_map_of_mem member)
    (raised virt) (kernelAddress_iff.mpr (top ▸ upper))
  have unmapped : leaf st.mem space (tablePath virt) (ptKey virt) = none := by
    rw [leaf, descend_tablePath, absent]
    rfl
  have mapped : leaf after.mem space (tablePath virt) (ptKey virt) = some entry := by
    rw [maps.leaves _ _ rfl, if_pos (show tablePath virt ++ [ptKey virt] = pagePath virt from rfl), unmapped]
    split <;> rfl
  have missing : child after.mem other (pml4Key virt) = none := by
    rw [← absent, ← shared.agree other member space spaceMember _ upper]
    simp only [child, root_kept maps spared member differ]
  have entryAbsent : checkFlag (entryAt after.mem other (pml4Key virt)) pagetablePresent = false := by
    rw [← Bool.not_eq_true]
    intro present
    rw [child_of_present present] at missing
    cases missing
  rw [resolve_eq maps.tree, raised_canonical kernel, if_pos rfl, samePath, sameKey, mapped, Option.map_some] at same
  simp only [resolve, pml4Indexer_key, top, readEntry_directmap, entryAbsent, Bool.not_false, if_true,
    ite_self] at same
  cases same

/-- The roots are frames, and their spaces have one kernel half. -/
def OneHalf (alloc : LawfulAllocator σ) (spaces : Spaces σ) : Prop :=
  ∃ roots : List Frame, spaces.roots = roots.map Subtype.val ∧ Shared alloc spaces.physical roots

theorem OneHalf.kernelAgree {spaces : Spaces σ} (half : OneHalf alloc spaces) : KernelAgree spaces := by
  obtain ⟨st, listed⟩ := spaces
  obtain ⟨roots, same, shared⟩ := half
  cases same
  exact shared.kernelAgree

theorem meets_map_iff {space : Frame} : Meets ⟨st, roots.map Subtype.val⟩ (.map space.val virt phys flags override) ↔
    child st.mem space (pml4Key virt) ≠ none ∨ ∀ other ∈ roots, other = space := by
  simp only [Meets, pml4Indexer_key, readEntry_directmap]
  refine or_congr ?_ ⟨fun single other member => ?_, fun single other member => ?_⟩
  · simp [child]
  · exact Subtype.ext (single other.val (mem_map_of_mem member))
  · obtain ⟨frame, inList, rfl⟩ := mem_map.mp member
    rw [single frame inList]

/-- One change keeps one kernel half if it meets the condition, and splits it otherwise. -/
theorem OneHalf.change {spaces : Spaces σ} {change : Change} (low : LowReserve alloc) (half : OneHalf alloc spaces)
    (admissible : Admissible spaces change) (supplied : Supplied alloc spaces change) :
    (Meets spaces change → OneHalf alloc (apply alloc spaces change)) ∧
      (¬ Meets spaces change → ¬ KernelAgree (apply alloc spaces change)) := by
  obtain ⟨st, listed⟩ := spaces
  obtain ⟨roots, same, shared⟩ := half
  cases same
  cases change with
  | create current =>
    obtain ⟨space, member, rfl⟩ := mem_map.mp admissible
    have aligned := alloc.aligned _ (alloc.drawn _ (shared.held space member).sound supplied).1
    refine ⟨fun _ => ⟨⟨_, aligned⟩ :: roots, rfl, shared.created member rfl supplied⟩, ?_⟩
    exact fun misses => absurd trivial misses
  | map space virt phys flags override =>
    obtain ⟨listed, kernel, plain⟩ := admissible
    obtain ⟨space, member, rfl⟩ := mem_map.mp listed
    obtain ⟨maps, blank, held, spared⟩ := shared.maps low member kernel plain supplied phys
    rw [meets_map_iff]
    constructor
    · exact fun meets => ⟨roots, rfl, shared.replaced (fun _ inList _ => inList) maps.tree held blank spared
        (fun table own => entryAt_foreign maps.outside (spared table own).2) fun _ =>
        shared.mapped_agree member maps spared meets⟩
    · intro misses
      obtain ⟨absent, many⟩ := not_or.mp misses
      obtain ⟨other, otherMember, differ⟩ : ∃ other, ∃ _ : other ∈ roots, other ≠ space := by
        simpa only [not_forall] using many
      exact shared.split member kernel maps spared (not_not.mp absent) otherMember differ

theorem Reached.oneHalf {spaces : Spaces σ} (low : LowReserve alloc) (reached : Reached alloc spaces) :
    OneHalf alloc spaces := by
  induction reached with
  | @boot st root tree held blank =>
    exact ⟨[root], rfl, .single tree held blank⟩
  | step change _ admissible supplied meets ih => exact (ih.change low admissible supplied).1 meets

end Changes

/-- While every map falls below a root entry that is there, or there is one space, all
spaces translate kernel addresses alike; the first change that does not meet this ends it. -/
theorem kernel_half_agrees_iff {σ : Type} (alloc : LawfulAllocator σ) (low : LowReserve alloc)
    (spaces : Spaces σ) (reached : Reached alloc spaces) : KernelAgree spaces ∧ ∀ change, Admissible spaces change →
      Supplied alloc spaces change → (KernelAgree (apply alloc spaces change) ↔ Meets spaces change) := by
  have half := reached.oneHalf low
  refine ⟨half.kernelAgree, fun change admissible supplied => ?_⟩
  obtain ⟨keeps, splits⟩ := half.change low admissible supplied
  exact ⟨fun agree => not_not.mp fun misses => splits misses agree, fun meets => (keeps meets).kernelAgree⟩

/-! ## Small spaces -/

/-- The small machine with its first space. -/
def smallBoot : Spaces BitmapAllocator.Allocator := ⟨smallSpace, [smallRoot.val]⟩

theorem smallBoot_reached : Reached smallLaws smallBoot := by
  have start := represents_cleared (fun _ => 0) smallRoot
  exact .boot start.tree small_held fun probe table slot short found _ absent =>
    start.blank probe table slot short found trivial absent

/-- A page of the kernel half, entered into the space of the small root. -/
def kernelPage (virt phys : Addr) : Change := .map smallRoot.val virt phys pagingDefaultFlags false

theorem kernelPage_admissible {spaces : Spaces BitmapAllocator.Allocator} (listed : smallRoot.val ∈ spaces.roots)
    (kernel : 256 ≤ (pml4Indexer virt).toNat) : Admissible spaces (kernelPage virt phys) := by
  refine ⟨listed, kernel, ?_, ?_, ?_, ?_⟩ <;> exact ⟨rfl, rfl, rfl⟩

/-- A second page below the entry that a page mapped before the process was created left. -/
theorem kernel_half_agrees_iff_below :
    let early := apply physicalAllocator smallBoot (kernelPage 0xffff900000000000 0x50000)
    let shared := apply physicalAllocator early (.create smallRoot.val)
    KernelAgree (apply physicalAllocator shared (kernelPage 0xffff900000200000 0x51000)) := by
  intro early shared
  have single : ∀ other ∈ smallBoot.roots, other = smallRoot.val := by simp [smallBoot]
  have first : Reached smallLaws early := by
    refine .step _ smallBoot_reached (kernelPage_admissible (by simp [smallBoot]) (by decide)) ?_ (.inr single)
    simp only [Supplied, kernelPage, MapDraws, DrawsAt]
    decide +kernel
  have second : Reached smallLaws shared := by
    refine .step _ first (show smallRoot.val ∈ [smallRoot.val] by simp) ?_ trivial
    simp only [Supplied]
    decide +kernel
  have listed : smallRoot.val ∈ shared.roots := List.mem_cons_of_mem _ (by simp [early, apply, smallBoot, kernelPage])
  have drawn : Supplied physicalAllocator shared (kernelPage 0xffff900000200000 0x51000) := by
    simp only [Supplied, kernelPage, MapDraws, DrawsAt]
    decide +kernel
  have present : checkFlag (readEntry shared.physical.mem (applyDirectmap smallRoot.val)
      (pml4Indexer 0xffff900000200000)) pagetablePresent = true := by decide +kernel
  exact ((kernel_half_agrees_iff smallLaws small_low shared second).2 (kernelPage 0xffff900000200000 0x51000)
    (kernelPage_admissible listed (by decide)) drawn).mpr (.inl present)

/-- The first page of the kernel half, mapped after a process was created, is missing in
the space of the process. -/
theorem late_page_missing : let shared := apply physicalAllocator smallBoot (.create smallRoot.val)
    let late := apply physicalAllocator shared (kernelPage 0xffff900000000000 0x50000)
    Reached smallLaws shared ∧ Admissible shared (kernelPage 0xffff900000000000 0x50000) ∧
      late.roots = [0x3000, 0x2000] ∧
      resolve late.physical.mem 0x2000 0xffff900000000000 = some 0x50000 ∧
      resolve late.physical.mem 0x3000 0xffff900000000000 = none := by
  intro shared late
  have made : Reached smallLaws shared := by
    refine .step _ smallBoot_reached (show smallRoot.val ∈ [smallRoot.val] by simp) ?_ trivial
    simp only [Supplied]
    decide +kernel
  have facts : late.roots = [0x3000, 0x2000] ∧ resolve late.physical.mem 0x2000 0xffff900000000000 = some 0x50000 ∧
      resolve late.physical.mem 0x3000 0xffff900000000000 = none := by decide +kernel
  exact ⟨made, kernelPage_admissible (List.mem_cons_of_mem _ (by simp [smallBoot])) (by decide), facts⟩

end LunaOS.SharedKernelHalf
