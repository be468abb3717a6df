import LunaOS.ElfFormat

/-! Comparisons of strings (`utils/strings.cpp`). `strncmp` takes four bytes a turn while it
can and the rest one by one; `strcmp` has no bound but the end of the first string. -/
namespace LunaOS.StringCompare
open ByteMemory BoundedLoop ElfFormat

/-- The variables of `strncmp`, with the addresses it has read so far. -/
structure Scan where
  s1 : Addr
  s2 : Addr
  c1 : Byte
  c2 : Byte
  reads : List Addr

/-- `c1 - c2`, as an `int` -/
def Scan.difference (scan : Scan) : Int := (scan.c1.toNat : Int) - scan.c2.toNat

/-- The next byte of both strings; the function returns where the first ends or they differ. -/
def compareNext (mem : Memory) (scan : Scan) : Except Scan Scan :=
  let c1 := mem scan.s1
  let c2 := mem scan.s2
  let scan := ⟨scan.s1 + 1, scan.s2 + 1, c1, c2, scan.reads ++ [scan.s1, scan.s2]⟩
  if c1 = 0 ∨ c1 ≠ c2 then throw scan else pure scan

/-- `do { ... } while (--n4 > 0)`, which begins with a positive count. -/
def quadLoop (mem : Memory) : Nat → Scan → Except Scan Scan
  | 0, scan => pure scan
  | n4 + 1, scan => do
    let scan ← compareNext mem scan
    let scan ← compareNext mem scan
    let scan ← compareNext mem scan
    let scan ← compareNext mem scan
    quadLoop mem n4 scan

/-- `while (n > 0) { ... n--; }` -/
def byteLoop (mem : Memory) : Nat → Scan → Except Scan Scan
  | 0, scan => pure scan
  | n + 1, scan => do
    let scan ← compareNext mem scan
    byteLoop mem n scan

/-- What is returned, early or at the end, and what was read. -/
def outcome : Except Scan Scan → Int × List Addr
  | .error scan => (scan.difference, scan.reads)
  | .ok scan => (scan.difference, scan.reads)

def strncmp (mem : Memory) (s1 s2 : Addr) (n : BitVec 64) : Int × List Addr :=
  outcome do
    let scan : Scan := ⟨s1, s2, 0, 0, []⟩
    if 4 ≤ n then
      let scan ← quadLoop mem (n >>> 2).toNat scan
      byteLoop mem (n &&& 3).toNat scan
    else byteLoop mem n.toNat scan

def strcmpTurn (mem : Memory) : Addr × Addr → Turn (Addr × Addr) Int
  | (X, Y) =>
    if mem X ≠ 0 ∧ mem X = mem Y then .again (X + 1, Y + 1)
    else .leave ((mem X).toNat - (mem Y).toNat)

/-- `strcmp`; it has no result if neither string ends nor they differ. -/
def strcmp (mem : Memory) (X Y : Addr) : Option Int := iterate (strcmpTurn mem) maxTurns (X, Y)

/-! ## One loop -/

section Loops
variable (mem : Memory)

theorem byteLoop_add (m n : Nat) (scan : Scan) :
    byteLoop mem (m + n) scan = byteLoop mem m scan >>= byteLoop mem n := by
  induction m generalizing scan with
  | zero => rw [Nat.zero_add]; rfl
  | succ m ih =>
    rw [Nat.succ_add, byteLoop, byteLoop]
    cases compareNext mem scan with
    | error stopped => rfl
    | ok next => exact ih next

/-- Four bytes a turn are the bytes one by one. -/
theorem quadLoop_eq (n4 : Nat) (scan : Scan) : quadLoop mem n4 scan = byteLoop mem (4 * n4) scan := by
  induction n4 generalizing scan with
  | zero => rfl
  | succ n4 ih =>
    have four : quadLoop mem (n4 + 1) scan = byteLoop mem 4 scan >>= quadLoop mem n4 := by
      simp only [quadLoop, byteLoop, bind_assoc, pure_bind]
    rw [four, Nat.mul_succ, Nat.add_comm, byteLoop_add, funext ih]

theorem strncmp_eq (s1 s2 : Addr) (n : BitVec 64) :
    strncmp mem s1 s2 n = outcome (byteLoop mem n.toNat ⟨s1, s2, 0, 0, []⟩) := by
  unfold strncmp
  by_cases unrolled : 4 ≤ n
  · have quads : (n >>> 2).toNat = n.toNat / 4 := by
      rw [BitVec.toNat_ushiftRight, Nat.shiftRight_eq_div_pow]
    have rest : (n &&& 3).toNat = n.toNat % 4 := by
      rw [BitVec.toNat_and]
      exact Nat.and_two_pow_sub_one_eq_mod n.toNat 2
    rw [if_pos unrolled, quadLoop_eq, quads, rest, ← byteLoop_add, Nat.div_add_mod]
  · rw [if_neg unrolled]

end Loops

/-! ## Where it stops -/

section Positions
variable (mem : Memory) (s1 s2 : Addr)

/-- The position of a string. -/
def position (string : Addr) (k : Nat) : Addr := string + BitVec.ofNat 64 k

theorem position_succ (string : Addr) (k : Nat) : position string (k + 1) = position string k + 1 := by
  rw [position, position, BitVec.ofNat_add, BitVec.add_assoc]
  rfl

/-- The first string ends here, or the two differ. -/
def Stops (k : Nat) : Prop :=
  mem (position s1 k) = 0 ∨ mem (position s1 k) ≠ mem (position s2 k)

/-- The first bytes of both strings, in the order they are read. -/
def bytesRead (count : Nat) : List Addr := (List.range count).flatMap fun k => [position s1 k, position s2 k]

/-- The variables after the first bytes. -/
def scanned (count : Nat) : Scan where
  s1 := position s1 count
  s2 := position s2 count
  c1 := if count = 0 then 0 else mem (position s1 (count - 1))
  c2 := if count = 0 then 0 else mem (position s2 (count - 1))
  reads := bytesRead s1 s2 count

theorem scanned_zero : scanned mem s1 s2 0 = ⟨s1, s2, 0, 0, []⟩ := by
  simp [scanned, position, bytesRead]

instance (k : Nat) : Decidable (Stops mem s1 s2 k) := inferInstanceAs (Decidable (_ ∨ _))

theorem compareNext_scanned (k : Nat) : compareNext mem (scanned mem s1 s2 k) =
    if Stops mem s1 s2 k then .error (scanned mem s1 s2 (k + 1)) else .ok (scanned mem s1 s2 (k + 1)) := by
  have next : scanned mem s1 s2 (k + 1) = ⟨position s1 k + 1, position s2 k + 1, mem (position s1 k),
      mem (position s2 k), bytesRead s1 s2 k ++ [position s1 k, position s2 k]⟩ := by
    simp [scanned, position_succ, bytesRead, List.range_succ]
  rw [next]
  rfl

variable {mem s1 s2}

/-- Bytes that do not stop the comparison are passed over. -/
theorem byteLoop_passes (equal : ∀ k < n, ¬ Stops mem s1 s2 k) :
    byteLoop mem n (scanned mem s1 s2 0) = .ok (scanned mem s1 s2 n) := by
  induction n with
  | zero => rfl
  | succ n ih =>
    have last : byteLoop mem 1 (scanned mem s1 s2 n) = .ok (scanned mem s1 s2 (n + 1)) := by
      rw [byteLoop, compareNext_scanned, if_neg (equal n (Nat.lt_succ_self n))]
      rfl
    rw [byteLoop_add, ih fun k small => equal k (Nat.lt_succ_of_lt small)]
    exact last

theorem byteLoop_stops (inside : k < n) (stops : Stops mem s1 s2 k) (equal : ∀ i < k, ¬ Stops mem s1 s2 i) :
    byteLoop mem n (scanned mem s1 s2 0) = .error (scanned mem s1 s2 (k + 1)) := by
  obtain ⟨rest, rfl⟩ : ∃ rest, n = k + (rest + 1) := ⟨n - k - 1, by omega⟩
  have here : byteLoop mem (rest + 1) (scanned mem s1 s2 k) = .error (scanned mem s1 s2 (k + 1)) := by
    rw [byteLoop, compareNext_scanned, if_pos stops]
    rfl
  rw [byteLoop_add, byteLoop_passes equal]
  exact here

theorem difference_scanned (equal : ∀ k < n, ¬ Stops mem s1 s2 k) : (scanned mem s1 s2 n).difference = 0 := by
  cases n with
  | zero => rfl
  | succ k =>
    have same := (not_or.mp (equal k (Nat.lt_succ_self k))).2
    have bytes : mem (position s1 k) = mem (position s2 k) := not_ne_iff.mp same
    simp only [Scan.difference, scanned, if_neg (Nat.succ_ne_zero k), Nat.add_sub_cancel, bytes, Int.sub_self]

/-- **The unrolled comparison is the plain one.** Up to the bound it stops at the first byte
that differs or ends the first string, with the difference there, and otherwise it finds
no difference; it reads what it compares and nothing behind it. -/
theorem strncmp_plain (mem : Memory) (s1 s2 : Addr) (n : BitVec 64) :
    (∀ k < n.toNat, Stops mem s1 s2 k → (∀ i < k, ¬ Stops mem s1 s2 i) → strncmp mem s1 s2 n =
        (((mem (position s1 k)).toNat : Int) - (mem (position s2 k)).toNat, bytesRead s1 s2 (k + 1))) ∧
      ((∀ k < n.toNat, ¬ Stops mem s1 s2 k) → strncmp mem s1 s2 n = (0, bytesRead s1 s2 n.toNat)) := by
  rw [strncmp_eq, ← scanned_zero mem]
  constructor
  · intro k inside stops equal
    rw [byteLoop_stops inside stops equal]
    rfl
  · intro equal
    rw [byteLoop_passes equal]
    exact Prod.ext (difference_scanned equal) rfl

end Positions

/-- The signatures of two tables, `FACP` and `FACS`. -/
def signatures : Memory :=
  write (write (fun _ => 0) 0x1000 4 fun i => [0x46, 0x41, 0x43, 0x50].getD i 0) 0x2000 4
    fun i => [0x46, 0x41, 0x43, 0x53].getD i 0

theorem strncmp_plain_signatures : strncmp signatures 0x1000 0x2000 4 = (-3, bytesRead 0x1000 0x2000 4) :=
  (strncmp_plain signatures 0x1000 0x2000 4).1 3 (by decide) (by decide) (by decide)

/-! ## Whole strings -/

section Strings
variable {mem : Memory} {X Y : Addr} {letters name : List Byte}

/-- The byte at the start of a string, which is zero if the string is empty. -/
theorem string_first (string : StringAt mem X letters) : mem X = letters.headD 0 := by
  cases letters with
  | nil => simpa using string.ended
  | cons first rest => simpa using string.byte 0 first rfl

theorem iterate_strcmp (string : StringAt mem X letters) (other : StringAt mem Y name)
    (fuel : letters.length < turns) :
    ∃ order, iterate (strcmpTurn mem) turns (X, Y) = some order ∧ (order = 0 ↔ letters = name) := by
  induction letters generalizing X Y name turns with
  | nil =>
    have here : mem X = 0 := string_first string
    have there := string_first other
    refine ⟨_, iterate_leave (if_neg fun both => both.1 here) fuel, ?_⟩
    rw [here, there]
    cases name with
    | nil => exact iff_of_true rfl rfl
    | cons first rest =>
      have nonzero := other.nonzero first List.mem_cons_self
      have value : first.toNat ≠ 0 := fun zero => nonzero (BitVec.eq_of_toNat_eq zero)
      refine iff_of_false ?_ (List.cons_ne_nil first rest).symm
      simp only [List.headD_cons]
      change ¬ (0 : Int) - first.toNat = 0
      omega
  | cons letter letters ih =>
    obtain ⟨turns, rfl⟩ : ∃ rest, turns = rest + 1 := ⟨turns - 1, by omega⟩
    have here : mem X = letter := string_first string
    have there := string_first other
    have nonzero := string.nonzero letter List.mem_cons_self
    by_cases same : mem Y = letter
    · rw [there] at same
      cases name with
      | nil => exact absurd same.symm nonzero
      | cons first rest =>
        cases show first = letter from same
        have asked : strcmpTurn mem (X, Y) = .again (X + 1, Y + 1) :=
          if_pos ⟨here ▸ nonzero, here.trans there.symm⟩
        obtain ⟨order, ran, equal⟩ := ih string.tail other.tail (Nat.lt_of_succ_lt_succ fuel)
        refine ⟨order, (iterate_again asked).trans ran, ?_⟩
        rw [equal, List.cons_inj_right]
    · refine ⟨_, iterate_leave (if_neg fun both => same (both.2.symm.trans here)) (Nat.succ_pos turns), ?_⟩
      rw [here]
      refine iff_of_false (fun zero => same (BitVec.eq_of_toNat_eq (by omega))) ?_
      rintro rfl
      exact same there

/-- `strcmp` returns, and tells whether the strings are equal. -/
theorem strcmp_strings (string : StringAt mem X letters) (other : StringAt mem Y name) :
    ∃ order, strcmp mem X Y = some order ∧ (order = 0 ↔ letters = name) :=
  iterate_strcmp string other string.length_lt

end Strings

end LunaOS.StringCompare
