import LunaOS.StringCompare

/-! The modules the boot loader passes on (`stivale2/stivale2_tools.cpp`). They are an array
with its length beside it; the search for one by its name tests for a null pointer, which
the walk through the array does not come to, and not for the length. -/
namespace LunaOS.BootModules
open ByteMemory BoundedLoop ElfFormat StringCompare

/-- `sizeof(stivale2_module)`: two addresses and the string -/
def sizeofModule : BitVec 64 := 144

/-- `STIVALE2_MODULE_STRING_SIZE` -/
def moduleStringSize : Nat := 128

/-- `modulesStruct->module_count`, behind the identifier and the link of the tag -/
def moduleCount (mem : Memory) (modulesStruct : Addr) : BitVec 64 := load64 mem (modulesStruct + 16)

/-- `modulesStruct->modules` -/
def modules (modulesStruct : Addr) : Addr := modulesStruct + 24

/-- `current_module->string` -/
def moduleName (module : Addr) : Addr := module + 16

def moduleTurn (mem : Memory) (moduleString currentModule : Addr) : Turn Addr (Option Addr) :=
  if currentModule = 0 then .leave (some 0)
  else
    match strcmp mem (moduleName currentModule) moduleString with
    | none => .leave none
    | some order => if order = 0 then .leave (some currentModule) else .again (currentModule + sizeofModule)

/-- `stivale2_get_module`; it has no result if the search does not end. -/
def stivale2GetModule (mem : Memory) (modulesStruct moduleString : Addr) : Option Addr :=
  (iterate (moduleTurn mem moduleString) maxTurns (modules modulesStruct)).join

/-- The elements whose strings are looked at. -/
def inspected (mem : Memory) (modulesStruct moduleString : Addr) : List Addr :=
  (visits (moduleTurn mem moduleString) maxTurns (modules modulesStruct)).filter (· ≠ 0)

/-! ## The array -/

/-- `&modulesStruct->modules[i]` -/
def element (modulesStruct : Addr) (i : Nat) : Addr := modules modulesStruct + BitVec.ofNat 64 i * sizeofModule

/-- A tag with the names of its modules. -/
structure ModulesTag (mem : Memory) (modulesStruct : Addr) (names : List (List Byte)) : Prop where
  count : (moduleCount mem modulesStruct).toNat = names.length
  room : modulesStruct.toNat + 24 + 144 * names.length ≤ 2 ^ 64
  string : ∀ i name, names[i]? = some name → StringAt mem (moduleName (element modulesStruct i)) name
  short : ∀ name ∈ names, name.length < moduleStringSize

/-- The first module of a name, or null. -/
def lookup (modulesStruct : Addr) (names : List (List Byte)) (wanted : List Byte) : Addr :=
  match names.findIdx? (· = wanted) with
  | some i => element modulesStruct i
  | none => 0

/-- The search ends with what it is for and stays inside the array. -/
structure Bounded (mem : Memory) (modulesStruct moduleString : Addr) (names : List (List Byte))
    (wanted : List Byte) : Prop where
  found : stivale2GetModule mem modulesStruct moduleString = some (lookup modulesStruct names wanted)
  inside : ∀ module ∈ inspected mem modulesStruct moduleString, ∃ i < names.length, module = element modulesStruct i

section Search
variable {mem : Memory} {modulesStruct moduleString : Addr} {names : List (List Byte)} {wanted : List Byte}

theorem element_zero : element modulesStruct 0 = modules modulesStruct := by
  simp [element]

theorem element_succ (i : Nat) : element modulesStruct (i + 1) = element modulesStruct i + sizeofModule := by
  rw [element, element, BitVec.ofNat_add, BitVec.add_mul, BitVec.add_assoc]
  exact congrArg (fun size => _ + (_ + size)) (BitVec.one_mul sizeofModule)

section Tags
variable (tag : ModulesTag mem modulesStruct names)
include tag

theorem ModulesTag.element_toNat (inside : i ≤ names.length) :
    (element modulesStruct i).toNat = (modulesStruct.toNat + 24 + 144 * i) % 2 ^ 64 := by
  have room := tag.room
  have offset : (BitVec.ofNat 64 i).toNat = i := by
    rw [BitVec.toNat_ofNat, Nat.mod_eq_of_lt (by omega)]
  rw [element, modules, BitVec.toNat_add, BitVec.toNat_add, BitVec.toNat_mul, offset,
    show (24 : BitVec 64).toNat = 24 from rfl, show sizeofModule.toNat = 144 from rfl]
  omega

theorem ModulesTag.element_inside (inside : i < names.length) :
    (element modulesStruct i).toNat = modulesStruct.toNat + 24 + 144 * i := by
  have room := tag.room
  rw [tag.element_toNat (Nat.le_of_lt inside), Nat.mod_eq_of_lt (by omega)]

theorem ModulesTag.element_ne_zero (inside : i < names.length) : element modulesStruct i ≠ 0 := by
  have place := tag.element_inside inside
  intro null
  rw [null, show (0 : Addr).toNat = 0 from rfl] at place
  omega

/-- The element behind the last one is none of the array. -/
theorem ModulesTag.end_outside (inside : i < names.length) :
    element modulesStruct names.length ≠ element modulesStruct i := by
  have place := tag.element_inside inside
  intro same
  rw [← same, tag.element_toNat (Nat.le_refl _)] at place
  rcases Nat.eq_or_lt_of_le tag.room with top | below
  · rw [top, Nat.mod_self] at place
    omega
  · rw [Nat.mod_eq_of_lt below] at place
    omega

theorem ModulesTag.enough_turns : names.length < maxTurns := by
  have room := tag.room
  unfold maxTurns
  omega

end Tags

variable (tag : ModulesTag mem modulesStruct names) (string : StringAt mem moduleString wanted)
include tag string

theorem moduleTurn_other (at_i : names[i]? = some name) (other : name ≠ wanted) :
    moduleTurn mem moduleString (element modulesStruct i) = .again (element modulesStruct (i + 1)) := by
  have inside : i < names.length := (List.getElem?_eq_some_iff.mp at_i).1
  obtain ⟨order, compared, equal⟩ := strcmp_strings (tag.string i name at_i) string
  rw [moduleTurn, if_neg (tag.element_ne_zero inside), compared, element_succ]
  exact if_neg fun same => other (equal.mp same)

theorem moduleTurn_wanted (at_i : names[i]? = some wanted) :
    moduleTurn mem moduleString (element modulesStruct i) = .leave (some (element modulesStruct i)) := by
  have inside : i < names.length := (List.getElem?_eq_some_iff.mp at_i).1
  obtain ⟨order, compared, equal⟩ := strcmp_strings (tag.string i wanted at_i) string
  rw [moduleTurn, if_neg (tag.element_ne_zero inside), compared]
  exact if_pos (equal.mpr rfl)

/-- The elements before one are passed over, if none of them has the name. -/
theorem search_passes (reach : count ≤ names.length) (none : wanted ∉ names.take count) : ∀ i < count,
    moduleTurn mem moduleString (element modulesStruct i) = .again (element modulesStruct (i + 1)) := by
  intro i early
  have here := List.getElem?_eq_getElem (Nat.lt_of_lt_of_le early reach)
  refine moduleTurn_other tag string here fun same => none ?_
  rw [← same]
  exact List.mem_take_iff_getElem.mpr ⟨i, by omega, rfl⟩

/-- Nothing but the array is looked at before an element that ends the search. -/
theorem search_leaves (reach : count ≤ names.length) (none : wanted ∉ names.take count)
    (left : moduleTurn mem moduleString (element modulesStruct count) = .leave result) :
    stivale2GetModule mem modulesStruct moduleString = result ∧ inspected mem modulesStruct moduleString =
        ((List.range count).map (element modulesStruct) ++ [element modulesStruct count]).filter (· ≠ 0) := by
  obtain ⟨ran, visited⟩ := iterate_ends (element modulesStruct) (search_passes tag string reach none) left
    (Nat.lt_of_le_of_lt reach tag.enough_turns)
  rw [element_zero] at ran visited
  rw [stivale2GetModule, ran, inspected, visited]
  exact ⟨Option.join_some, rfl⟩

/-- Without the name in the array the search goes on to the element behind it. -/
theorem search_overruns (none : wanted ∉ names) (more : element modulesStruct names.length ≠ 0) :
    element modulesStruct names.length ∈ inspected mem modulesStruct moduleString := by
  obtain ⟨rest, enough⟩ : ∃ rest, maxTurns = rest + 1 + names.length := by
    have few := tag.enough_turns
    exact ⟨maxTurns - names.length - 1, by omega⟩
  have passed := search_passes tag string (Nat.le_refl names.length) (by rwa [List.take_length])
  have visited := (iterate_along (element modulesStruct) passed (rest + 1)).2
  rw [element_zero, ← enough] at visited
  rw [inspected, visited, List.mem_filter]
  exact ⟨List.mem_append_right _ List.mem_cons_self, decide_eq_true more⟩

theorem bounded_of_mem (member : wanted ∈ names) : Bounded mem modulesStruct moduleString names wanted := by
  cases found : names.findIdx? (· = wanted) with
  | none => exact absurd rfl (of_decide_eq_false (List.findIdx?_eq_none_iff.mp found wanted member))
  | some i =>
    obtain ⟨inside, here, early⟩ := List.findIdx?_eq_some_iff_getElem.mp found
    have at_i : names[i]? = some wanted := (List.getElem?_eq_getElem inside).trans (congrArg some (of_decide_eq_true here))
    have none : wanted ∉ names.take i := by
      intro before
      obtain ⟨j, small, same⟩ := List.mem_take_iff_getElem.mp before
      exact early j (by omega) (decide_eq_true same)
    obtain ⟨returned, looked⟩ := search_leaves tag string (Nat.le_of_lt inside) none (moduleTurn_wanted tag string at_i)
    refine ⟨?_, fun module member => ?_⟩
    · rw [returned, lookup, found]
    · rw [looked, List.mem_filter, List.mem_append, List.mem_map, List.mem_singleton] at member
      rcases member.1 with ⟨j, small, rfl⟩ | rfl
      · exact ⟨j, Nat.lt_trans (List.mem_range.mp small) inside, rfl⟩
      · exact ⟨i, inside, rfl⟩

/-- An array that ends with the addresses is followed by a null pointer. -/
theorem bounded_of_top (none : wanted ∉ names) (top : element modulesStruct names.length = 0) :
    Bounded mem modulesStruct moduleString names wanted := by
  have missing : names.findIdx? (· = wanted) = Option.none :=
    List.findIdx?_eq_none_iff.mpr fun name member => decide_eq_false fun same => none (same ▸ member)
  have left : moduleTurn mem moduleString (element modulesStruct names.length) = .leave (some 0) := if_pos top
  obtain ⟨returned, looked⟩ := search_leaves tag string (Nat.le_refl _) (by rwa [List.take_length]) left
  refine ⟨?_, fun module member => ?_⟩
  · rw [returned, lookup, missing]
  · rw [looked, List.mem_filter, List.mem_append, List.mem_map, List.mem_singleton] at member
    obtain ⟨⟨j, small, rfl⟩ | rfl, present⟩ := member
    · exact ⟨j, List.mem_range.mp small, rfl⟩
    · exact absurd top (of_decide_eq_true present)

end Search

/-- The search keeps to the array exactly if the name is in it, or no address is behind it. -/
theorem get_module_bounded_iff (mem : Memory) (modulesStruct moduleString : Addr) (names : List (List Byte))
    (wanted : List Byte) (tag : ModulesTag mem modulesStruct names) (string : StringAt mem moduleString wanted) :
    Bounded mem modulesStruct moduleString names wanted ↔
      wanted ∈ names ∨ modulesStruct.toNat + 24 + 144 * names.length = 2 ^ 64 := by
  have room := tag.room
  have top : element modulesStruct names.length = 0 ↔ modulesStruct.toNat + 24 + 144 * names.length = 2 ^ 64 := by
    rw [← BitVec.toNat_inj, tag.element_toNat (Nat.le_refl _), show (0 : Addr).toNat = 0 from rfl]
    omega
  rw [← top]
  constructor
  · intro bounded
    by_contra neither
    obtain ⟨none, more⟩ := not_or.mp neither
    obtain ⟨i, inside, same⟩ := bounded.inside _ (search_overruns tag string none more)
    exact tag.end_outside inside same
  · rintro (member | top)
    · exact bounded_of_mem tag string member
    · by_cases member : wanted ∈ names
      · exact bounded_of_mem tag string member
      · exact bounded_of_top tag string member top

/-- `init` -/
def initName : List Byte := [0x69, 0x6E, 0x69, 0x74]

/-- `psf_font` -/
def fontName : List Byte := [0x70, 0x73, 0x66, 0x5F, 0x66, 0x6F, 0x6E, 0x74]

/-- `term` -/
def termName : List Byte := [0x74, 0x65, 0x72, 0x6D]

/-- A tag with two modules at `0x1000`, and two names. -/
def bootMemory : Memory :=
  let mem := store64 (fun _ => 0) 0x1010 2
  let mem := write mem 0x1028 4 fun i => termName.getD i 0
  let mem := write mem 0x10B8 4 fun i => initName.getD i 0
  let mem := write mem 0x5000 4 fun i => initName.getD i 0
  write mem 0x6000 8 fun i => fontName.getD i 0

theorem bootMemory_tag : ModulesTag bootMemory 0x1000 [termName, initName] where
  count := by decide
  room := by decide
  string i name found := by
    match i with
    | 0 =>
      cases found
      exact stringAt_of_get (by decide) (by decide) (by decide)
    | 1 =>
      cases found
      exact stringAt_of_get (by decide) (by decide) (by decide)
    | i + 2 => cases found
  short := by decide

theorem bootMemory_init : StringAt bootMemory 0x5000 initName := stringAt_of_get (by decide) (by decide) (by decide)

theorem bootMemory_font : StringAt bootMemory 0x6000 fontName := stringAt_of_get (by decide) (by decide) (by decide)

theorem get_module_bounded_iff_init : Bounded bootMemory 0x1000 0x5000 [termName, initName] initName :=
  (get_module_bounded_iff bootMemory 0x1000 0x5000 [termName, initName] initName bootMemory_tag bootMemory_init).mpr
    (.inl (by decide))

/-- Without a font among the modules the search goes on behind the last one. -/
theorem get_module_overruns : ∃ mem modulesStruct moduleString names wanted,
    ModulesTag mem modulesStruct names ∧ StringAt mem moduleString wanted ∧ wanted ∉ names ∧
      ∃ module ∈ inspected mem modulesStruct moduleString, ∀ i < names.length, module ≠ element modulesStruct i := by
  refine ⟨bootMemory, 0x1000, 0x6000, [termName, initName], fontName, bootMemory_tag, bootMemory_font, by decide, ?_⟩
  exact ⟨_, search_overruns bootMemory_tag bootMemory_font (by decide) (by decide),
    fun i inside => bootMemory_tag.end_outside inside⟩

end LunaOS.BootModules
