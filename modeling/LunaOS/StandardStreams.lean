import LunaOS.FileDescriptors

/-! Keyboard input and printed output go through the files of a process's standard
streams. The writer and the reader of each share one file object and so one position;
the kernel's side keeps a position of its own and puts the shared one back. -/
namespace LunaOS.StandardStreams
open ByteMemory FatFs FileDescriptors

/-- `QWERTY::scancode1` -/
def scancode1 : List Byte :=
  [0, 0x1b, 49, 50, 51, 52, 53, 54, 55, 56, 57, 48, 45, 61, 0x8, 9, 113, 119, 101, 114, 116, 121, 117, 105,
   111, 112, 91, 93, 10, 0, 97, 115, 100, 102, 103, 104,
   106, 107, 108, 59, 39, 96, 0, 92, 122, 120, 99, 118,
   98, 110, 109, 44, 46, 47, 0, 42, 0, 32]

/-- `QWERTY::scancode1Shift` -/
def scancode1Shift : List Byte :=
  [0, 0x1b, 33, 64, 35, 36, 37, 94, 38, 42, 40, 41, 95, 43, 0x8, 9, 81, 87, 69, 82, 84, 89, 85, 73,
   79, 80, 123, 125, 10, 0, 65, 83, 68, 70, 71, 72,
   74, 75, 76, 58, 34, 126, 0, 124, 90, 88, 67, 86,
   66, 78, 77, 60, 62, 63, 0, 42, 0, 32]

/-- The machine with the handler's `leftShift`, and whether its process has the focus. -/
structure Console (Volume : Type) where
  machine : Machine Volume
  leftShift : Bool
  focused : Bool

variable {Volume : Type} (fs : Library Volume) (beyond : Nat → Byte)

/-- The character of a key; `beyond` is what memory holds behind the tables. -/
def translate (shift : Bool) (key : BitVec 8) : Byte :=
  (if shift then scancode1Shift else scancode1).getD key.toNat (beyond key.toNat)

/-- `PS2::keyboardHandler`, with what the write it made reported. -/
def keyboardHandler (console : Console Volume) (status key : BitVec 8) :
    Console Volume × Option (Fresult × BitVec 32) :=
  if status &&& 1 = 0 then (console, none)
  else if key = 0xAA then ({ console with leftShift := false }, none)
  else if key = 0x2A then ({ console with leftShift := true }, none)
  else if key.toNat < 0x81 then
    if key.toNat < 0x40 ∧ console.focused then
      let proc := console.machine.proc
      let stdin := proc.stdin
      let stdinReadPtr := fs.fTell console.machine.volume stdin
      let (_, volume) := fs.fLseek console.machine.volume stdin proc.stdinWritePtr
      let c := translate beyond console.leftShift key
      let (res, bytesWritten, volume) := fs.fWrite volume stdin [c]
      let stdinWritePtr := proc.stdinWritePtr + bytesWritten.toNat
      let (_, volume) := fs.fLseek volume stdin stdinReadPtr
      ({ console with machine :=
          { console.machine with volume, proc := { proc with stdinWritePtr } } },
        some (res, bytesWritten))
    else (console, none)
  else (console, none)

/-- `Syscall::Calls::printSTDOUT`, with the block it read; `none` is a null file object. -/
def printSTDOUT (stray : Int → Option Fil) (machine : Machine Volume) : Option (List Byte × Machine Volume) := do
  let proc := machine.proc
  let stdout ← proc.fileDescriptors.get stray 1
  let prevPtr := fs.fTell machine.volume stdout
  let (_, volume) := fs.fLseek machine.volume stdout proc.stdoutReadPtr
  let size := BitVec.ofNat 64 (fs.fSize volume stdout) - BitVec.ofNat 64 proc.stdoutReadPtr
  let (_, block, volume) := fs.fRead volume stdout (size.setWidth 32)
  let stdoutReadPtr := proc.stdoutReadPtr + block.length
  let (_, volume) := fs.fLseek volume stdout prevPtr
  some (block, { machine with volume, proc := { proc with stdoutReadPtr } })

/-! ### Input -/

/-- What happened at the input side, the latest event first. -/
inductive Input where
  | key (status key : BitVec 8)
  | returned (bytes : List Byte)

/-- What an event says about the shift key. -/
def Input.shift : Input → Option Bool
  | .key status code =>
    if status &&& 1 = 0 then none
    else if code = 0xAA then some false
    else if code = 0x2A then some true
    else none
  | .returned _ => none

/-- A press was seen after the last release. -/
def shifted (history : List Input) : Bool := (history.findSome? Input.shift).getD false

/-- The characters translated, in the order they were typed. -/
def typed : List Input → List Byte
  | [] => []
  | .key status key :: earlier =>
    if status &&& 1 ≠ 0 ∧ key ≠ 0xAA ∧ key ≠ 0x2A ∧ key.toNat < 0x40
    then typed earlier ++ [translate beyond (shifted earlier) key]
    else typed earlier
  | .returned _ :: earlier => typed earlier

def returned : List Input → List Byte
  | [] => []
  | .key _ _ :: earlier => returned earlier
  | .returned bytes :: earlier => returned earlier ++ bytes

/-- The interleavings of the handler and of reads of the standard input, from a new
process on, in which the writes of the handler succeed. -/
inductive Typing : Console Volume → List Input → Prop
  | created {volume : Volume} {nextFil : Fil} {machine : Machine Volume} :
      createStreams fs volume nextFil = some machine → Typing ⟨machine, false, true⟩ []
  | key (status key : BitVec 8) {console after : Console Volume} {history : List Input}
      {report : Option (Fresult × BitVec 32)} : Typing console history →
      keyboardHandler fs beyond console status key = (after, report) →
      (∀ written ∈ report, written = (.ok, 1)) → Typing after (.key status key :: history)
  | read (stray : Int → Option Fil) (count : BitVec 32) {console : Console Volume}
      {machine : Machine Volume} {history : List Input} {reply : Reply} : Typing console history →
      sysRead fs stray console.machine 0 count = (reply, machine) →
      Typing { console with machine } (.returned reply.bytes :: history)

variable {fs} (backed : ByteBacked fs)

/-- The file of the standard input holds what was typed; its position divides what was
returned from what is still to be read, and the handler writes at its end. -/
structure InputFile (console : Console Volume) (history : List Input) : Prop where
  focused : console.focused = true
  isOpen : fs.isOpen console.machine.volume console.machine.proc.stdin = true
  first : console.machine.proc.fileDescriptors.buffer[0]? = some console.machine.proc.stdin
  shift : console.leftShift = shifted history
  contents : (backed.file console.machine.volume console.machine.proc.stdin).contents = typed beyond history
  position : (typed beyond history).take
    (backed.file console.machine.volume console.machine.proc.stdin).position = returned history
  atEnd : console.machine.proc.stdinWritePtr = (typed beyond history).length

variable {backed beyond} {console after : Console Volume} {machine : Machine Volume} {history : List Input}

/-- An open, empty file with its name. -/
def Blank (backed : ByteBacked fs) (volume : Volume) (fil : Fil) (path : String) : Prop :=
  fs.isOpen volume fil = true ∧ backed.file volume fil = ByteFile.empty ∧ backed.name volume fil = path

theorem blank_opened (backed : ByteBacked fs) {volume : Volume} (opened : (fs.fOpen volume fil path 0x0B).1 = .ok) :
    Blank backed (fs.fOpen volume fil path 0x0B).2 fil path := by
  refine ⟨?_, backed.created volume fil path 0x0B opened (by decide), backed.opened volume fil path 0x0B opened⟩
  rw [fs.isOpen_fOpen, if_pos rfl, opened]
  rfl

theorem Blank.kept {volume : Volume} (blank : Blank backed volume fil path) (apart : fil ≠ other)
    (renamed : path ≠ otherPath) : Blank backed (fs.fOpen volume other otherPath 0x0B).2 fil path := by
  obtain ⟨isOpen, empty, named⟩ := blank
  obtain ⟨sameFile, sameName⟩ :=
    backed.open_other volume other otherPath 0x0B fil apart isOpen (by rwa [named])
  refine ⟨?_, sameFile.trans empty, sameName.trans named⟩
  rw [fs.isOpen_fOpen, if_neg apart, isOpen]

/-- The standard streams of a new process are open and empty. -/
theorem created_streams (backed : ByteBacked fs) {volume : Volume} {nextFil : Nat}
    (created : createStreams fs volume nextFil = some machine) : Blank backed machine.volume machine.proc.stdin "0" ∧
      Blank backed machine.volume machine.proc.stdout "1" := by
  obtain ⟨openedIn, openedOut, -, volumeEq, -, stdin, stdout, -⟩ := created_machine created
  rw [volumeEq, stdin, stdout]
  have blankIn := blank_opened backed openedIn
  have blankOut := blank_opened backed openedOut
  have inOut : nextFil ≠ nextFil + 1 := by omega
  have inErr : nextFil ≠ nextFil + 2 := by omega
  have outErr : nextFil + 1 ≠ nextFil + 2 := by omega
  exact ⟨(blankIn.kept inOut (by decide)).kept inErr (by decide), blankOut.kept outErr (by decide)⟩

/-- A seek, a write and a seek back, as the file sees them. -/
theorem appended (backed : ByteBacked fs) {volume : Volume} (isOpen : fs.isOpen volume fil = true)
    (bytes : List Byte) : let stored := fs.fWrite (fs.fLseek volume fil (backed.file volume fil).size).2 fil bytes
    let back := (fs.fLseek stored.2.2 fil (fs.fTell volume fil)).2
    let accepted := ((backed.file volume fil).seek (backed.file volume fil).size).accepted bytes
    fs.isOpen back fil = true ∧ stored.2.1 = BitVec.ofNat 32 accepted.length ∧
      (backed.file back fil).contents = (backed.file volume fil).contents ++ accepted ∧
      (backed.file back fil).position = (backed.file volume fil).position := by
  intro stored back accepted
  have moved := backed.fLseek_eq volume fil (backed.file volume fil).size isOpen
  have openMoved := (fs.isOpen_fLseek volume fil (backed.file volume fil).size fil).trans isOpen
  obtain ⟨-, count, kept⟩ := backed.fWrite_eq _ fil bytes openMoved
  have openStored : fs.isOpen stored.2.2 fil = true := (fs.isOpen_fWrite _ _ _ _).trans openMoved
  have returned := backed.fLseek_eq _ fil (fs.fTell volume fil) openStored
  rw [moved] at count kept
  rw [kept, backed.fTell_eq volume fil isOpen] at returned
  refine ⟨(fs.isOpen_fLseek _ _ _ _).trans openStored, count, ?_⟩
  rw [show back = (fs.fLseek stored.2.2 fil (fs.fTell volume fil)).2 from rfl,
    backed.fTell_eq volume fil isOpen, returned]
  exact ByteFile.seek_write_seek

/-- A seek, a read of the rest and a seek back, as the file sees them. -/
theorem fetched (backed : ByteBacked fs) {volume : Volume} (isOpen : fs.isOpen volume fil = true)
    (inside : offset ≤ (backed.file volume fil).size) : let moved := (fs.fLseek volume fil offset).2
    let size := BitVec.ofNat 64 (fs.fSize moved fil) - BitVec.ofNat 64 offset
    let block := fs.fRead moved fil (size.setWidth 32)
    let back := (fs.fLseek block.2.2 fil (fs.fTell volume fil)).2
    fs.isOpen back fil = true ∧ block.2.1 = (backed.file volume fil).contents.drop offset ∧
      backed.file back fil = backed.file volume fil := by
  intro moved size block back
  obtain ⟨kept, position⟩ := ByteFile.seek_inside inside
  have fileMoved : backed.file moved fil = (backed.file volume fil).seek offset :=
    backed.fLseek_eq volume fil offset isOpen
  have openMoved : fs.isOpen moved fil = true := (fs.isOpen_fLseek _ _ _ _).trans isOpen
  obtain ⟨-, bytes, fileRead⟩ := backed.fRead_eq moved fil (size.setWidth 32) openMoved
  have openRead : fs.isOpen block.2.2 fil = true := (fs.isOpen_fRead _ _ _ _).trans openMoved
  have fileBack := backed.fLseek_eq block.2.2 fil (fs.fTell volume fil) openRead
  have remaining : (size.setWidth 32).toNat = (backed.file volume fil).size - offset := by
    have fits := (backed.file volume fil).fits
    have same : fs.fSize moved fil = (backed.file volume fil).size := by
      rw [backed.fSize_eq moved fil openMoved, fileMoved, ByteFile.size, kept, ByteFile.size]
    simp only [size, same, ByteFile.size, maxSize, BitVec.toNat_setWidth, BitVec.toNat_sub, BitVec.toNat_ofNat] at *
    omega
  refine ⟨(fs.isOpen_fLseek _ _ _ _).trans openRead, ?_, ?_⟩
  · have enough : ((backed.file volume fil).seek offset).size -
        ((backed.file volume fil).seek offset).position ≤ (size.setWidth 32).toNat := by
      rw [remaining, position, ByteFile.size, kept, ByteFile.size]
    rw [bytes, fileMoved, ByteFile.read_rest enough, kept, position]
  · rw [fileBack, fileRead, fileMoved, backed.fTell_eq volume fil isOpen]
    exact ByteFile.seek_read_seek inside

theorem Typing.start {volume : Volume} {nextFil : Nat} (backed : ByteBacked fs)
    (created : createStreams fs volume nextFil = some machine) :
    InputFile beyond backed ⟨machine, false, true⟩ [] := by
  obtain ⟨isOpen, empty, -⟩ := (created_streams backed created).1
  obtain ⟨-, -, -, -, -, stdin, -, writePtr, -, buffer⟩ := created_machine created
  refine ⟨rfl, isOpen, ?_, rfl, ?_, ?_, writePtr⟩
  · simp [buffer, stdin]
  · simp [empty, ByteFile.empty, typed]
  · simp [typed, returned]

section Input
variable (input : InputFile beyond backed console history)
include input

/-- A key that stands for a character puts it at the end of the file and nothing else. -/
theorem InputFile.append (ready : status &&& 1 ≠ 0) (notRelease : code ≠ 0xAA) (notPress : code ≠ 0x2A)
    (known : code.toNat < 0x40) (handled : keyboardHandler fs beyond console status code = (after, report))
    (succeeded : ∀ written ∈ report, written = (.ok, 1)) :
    InputFile beyond backed after (.key status code :: history) := by
  obtain ⟨focused, isOpen, first, shift, contents, position, atEnd⟩ := input
  have pressed : code.toNat < 0x81 := by omega
  have character : typed beyond (.key status code :: history) =
      typed beyond history ++ [translate beyond (shifted history) code] := by
    rw [typed, if_pos ⟨ready, notRelease, notPress, known⟩]
  have noShift : shifted (.key status code :: history) = shifted history := by
    simp only [shifted, List.findSome?_cons, Input.shift, if_neg ready, if_neg notRelease, if_neg notPress]
  have writePtr : console.machine.proc.stdinWritePtr =
      (backed.file console.machine.volume console.machine.proc.stdin).size := by
    rw [atEnd, ByteFile.size, contents]
  obtain ⟨stillOpen, count, stored, kept⟩ :=
    appended backed isOpen [translate beyond console.leftShift code]
  simp only [keyboardHandler, if_neg ready, if_neg notRelease, if_neg notPress, if_pos pressed,
    if_pos (And.intro known focused), Prod.mk.injEq, writePtr] at handled
  obtain ⟨rfl, rfl⟩ := handled
  have one := count.symm.trans (congrArg Prod.snd (succeeded _ rfl))
  have whole := ByteFile.accepted_single one
  rw [whole, contents, shift, ← character, ← shift] at stored
  refine ⟨focused, stillOpen, first, shift.trans noShift.symm, stored, ?_, ?_⟩
  · dsimp only
    rw [kept, character, List.take_append_of_le_length]
    · exact position
    · rw [← contents]
      exact ByteFile.within _
  · dsimp only
    rw [count, one, ByteFile.size, contents, character, List.length_append]
    rfl

/-- Every other key leaves the machine alone. -/
theorem InputFile.ignore (other : ¬ (status &&& 1 ≠ 0 ∧ code ≠ 0xAA ∧ code ≠ 0x2A ∧ code.toNat < 0x40))
    (handled : keyboardHandler fs beyond console status code = (after, report)) :
    InputFile beyond backed after (.key status code :: history) := by
  have sameTyped : typed beyond (.key status code :: history) = typed beyond history := by
    rw [typed, if_neg other]
  have rest : after.machine = console.machine ∧ after.focused = console.focused ∧
      after.leftShift = shifted (.key status code :: history) := by
    have shift := input.shift
    unfold keyboardHandler at handled
    simp only [shifted, List.findSome?_cons, Input.shift] at shift ⊢
    split at handled
    · cases handled
      simp_all
    · split at handled
      · cases handled
        simp_all
      · split at handled
        · cases handled
          simp_all
        · have high : ¬ (code.toNat < 0x40 ∧ console.focused = true) := fun low =>
            other ⟨‹_›, ‹_›, ‹_›, low.1⟩
          rw [if_neg high, ite_self] at handled
          cases handled
          simp_all
  obtain ⟨machine, focused, shift⟩ := rest
  obtain ⟨wasFocused, isOpen, first, -, contents, position, atEnd⟩ := input
  rw [← machine] at isOpen first contents position atEnd
  rw [← sameTyped] at contents position atEnd
  exact ⟨focused.trans wasFocused, isOpen, first, shift, contents, position, atEnd⟩

/-- A read of descriptor 0 returns the next bytes of the file. -/
theorem InputFile.read {stray : Int → Option Fil}
    (result : sysRead fs stray console.machine 0 count = (reply, machine)) :
    InputFile beyond backed { console with machine } (.returned reply.bytes :: history) := by
  obtain ⟨focused, isOpen, first, shift, contents, position, atEnd⟩ := input
  have inside : console.machine.proc.fileDescriptors.Inside 0 :=
    DescriptorList.inside_iff.mpr (List.getElem?_eq_some_iff.mp first).1
  have element : console.machine.proc.fileDescriptors.get stray (BitVec.toInt 0) =
      some console.machine.proc.stdin := (DescriptorList.get_inside inside).trans first
  obtain ⟨-, bytes, file⟩ := backed.fRead_eq _ _ count isOpen
  simp only [sysRead, element, Prod.mk.injEq] at result
  obtain ⟨rfl, rfl⟩ := result
  refine ⟨focused, (fs.isOpen_fRead _ _ _ _).trans isOpen, first, shift, ?_, ?_, atEnd⟩
  · dsimp only
    rw [file]
    exact contents
  · dsimp only
    rw [file, bytes, typed, returned, ← contents, ByteFile.read_advances, contents, position]

end Input

theorem Typing.inputFile (backed : ByteBacked fs) (typing : Typing fs beyond console history) :
    InputFile beyond backed console history := by
  induction typing with
  | created created => exact Typing.start backed created
  | key status code _ handled succeeded ih =>
    by_cases character : status &&& 1 ≠ 0 ∧ code ≠ 0xAA ∧ code ≠ 0x2A ∧ code.toNat < 0x40
    · obtain ⟨ready, notRelease, notPress, known⟩ := character
      exact ih.append ready notRelease notPress known handled succeeded
    · exact ih.ignore character handled
  | read stray count _ result ih => exact ih.read result

/-- The bytes reads have returned and those still in the file are the characters
typed, each once and in order. -/
theorem keyboard_input_fifo {Volume : Type} {fs : Library Volume} {beyond : Nat → Byte}
    {console : Console Volume} {history : List Input} (backed : ByteBacked fs)
    (typing : Typing fs beyond console history) : returned history <+: typed beyond history ∧
      ∃ unread, returned history ++ unread = typed beyond history ∧
        unread = (backed.file console.machine.volume console.machine.proc.stdin).contents.drop
          (backed.file console.machine.volume console.machine.proc.stdin).position := by
  have input := typing.inputFile backed
  have split : returned history ++ (typed beyond history).drop
      (backed.file console.machine.volume console.machine.proc.stdin).position = typed beyond history := by
    rw [← input.position]
    exact List.take_append_drop _ _
  refine ⟨⟨_, split⟩, _, split, ?_⟩
  rw [input.contents]

/-- Shift, `a`, release, `b`, and a read of one byte. -/
theorem keyboard_input_fifo_shifted : ∃ console history, Typing memory (fun _ => 0) console history ∧
      returned history = [65] ∧ typed (fun _ => 0) history = [65, 98] ∧
      returned history <+: typed (fun _ => 0) history := by
  have created : ∃ machine, createStreams memory (fun _ => none) 0 = some machine := ⟨_, rfl⟩
  obtain ⟨machine, created⟩ := created
  have start : Typing memory (fun _ => 0) ⟨machine, false, true⟩ [] := .created created
  cases created
  have press := start.key 1 0x2A rfl (by simp)
  have first := press.key 1 0x1E rfl (by decide)
  have release := first.key 1 0xAA rfl (by simp)
  have second := release.key 1 0x30 rfl (by decide)
  have read := second.read (fun _ => none) 1 rfl
  exact ⟨_, _, read, by decide, by decide, (keyboard_input_fifo memoryBacked read).1⟩

/-! ### Output -/

/-- What happened at the output side, the latest event first: the bytes a write
stored, and the block a print read. -/
inductive Output where
  | wrote (bytes : List Byte)
  | shown (block : List Byte)

def wroteAll : List Output → List Byte
  | [] => []
  | .wrote bytes :: earlier => wroteAll earlier ++ bytes
  | .shown _ :: earlier => wroteAll earlier

def shownAll : List Output → List Byte
  | [] => []
  | .wrote _ :: earlier => shownAll earlier
  | .shown block :: earlier => shownAll earlier ++ block

/-- The bytes written before the last print. -/
def due : List Output → List Byte
  | [] => []
  | .wrote _ :: earlier => due earlier
  | .shown _ :: earlier => wroteAll earlier

variable (fs) in
/-- The interleavings of writes to descriptor 1 and prints, from a new process on. -/
inductive Printing : Machine Volume → List Output → Prop
  | created {volume : Volume} {nextFil : Nat} {machine : Machine Volume} :
      createStreams fs volume nextFil = some machine → Printing machine []
  | write (stray : Int → Option Fil) (buf : Nat → Byte) (btw : BitVec 64) {machine after : Machine Volume}
      {history : List Output} {reply : Reply} {bw : BitVec 32} : Printing machine history →
      sysWrite fs stray machine 1 buf btw = (reply, after) → reply.bw = some bw →
      Printing after (.wrote ((written buf btw).take bw.toNat) :: history)
  | print (stray : Int → Option Fil) {machine after : Machine Volume} {history : List Output}
      {block : List Byte} : Printing machine history →
      printSTDOUT fs stray machine = some (block, after) → Printing after (.shown block :: history)

/-- The file of the standard output holds what was written and stands at its end; the
print position divides what was shown from the rest. -/
structure OutputFile (backed : ByteBacked fs) (machine : Machine Volume) (history : List Output) : Prop where
  isOpen : fs.isOpen machine.volume machine.proc.stdout = true
  second : machine.proc.fileDescriptors.buffer[1]? = some machine.proc.stdout
  contents : (backed.file machine.volume machine.proc.stdout).contents = wroteAll history
  atEnd : (backed.file machine.volume machine.proc.stdout).position = (wroteAll history).length
  behind : machine.proc.stdoutReadPtr ≤ (wroteAll history).length
  shown : (wroteAll history).take machine.proc.stdoutReadPtr = shownAll history
  due : shownAll history = due history

theorem Printing.start {volume : Volume} {nextFil : Nat} (backed : ByteBacked fs)
    (created : createStreams fs volume nextFil = some machine) : OutputFile backed machine [] := by
  obtain ⟨isOpen, empty, -⟩ := (created_streams backed created).2
  obtain ⟨-, -, -, -, -, -, stdout, -, readPtr, buffer⟩ := created_machine created
  refine ⟨isOpen, ?_, ?_, ?_, ?_, ?_, rfl⟩
  · simp [buffer, stdout]
  · simp [empty, ByteFile.empty, wroteAll]
  · simp [empty, ByteFile.empty, wroteAll]
  · rw [readPtr]
    exact Nat.zero_le _
  · simp [wroteAll, shownAll]

section Output
variable {history : List Output} {after : Machine Volume}

theorem OutputFile.element {stray : Int → Option Fil} (output : OutputFile backed machine history) :
    machine.proc.fileDescriptors.get stray 1 = some machine.proc.stdout := by
  have inside : machine.proc.fileDescriptors.Inside 1 :=
    DescriptorList.inside_iff.mpr (List.getElem?_eq_some_iff.mp output.second).1
  exact (DescriptorList.get_inside inside).trans output.second

/-- A write stores its bytes behind everything written before. -/
theorem OutputFile.write {stray : Int → Option Fil} {btw : BitVec 64} (output : OutputFile backed machine history)
    (result : sysWrite fs stray machine 1 buf btw = (reply, after)) (counted : reply.bw = some bw) :
    OutputFile backed after (.wrote ((written buf btw).take bw.toNat) :: history) := by
  have element : machine.proc.fileDescriptors.get stray (BitVec.toInt (1 : BitVec 32)) =
      some machine.proc.stdout := by
    rw [show BitVec.toInt (1 : BitVec 32) = 1 by decide]
    exact output.element
  obtain ⟨isOpen, second, contents, atEnd, behind, shown, dueEq⟩ := output
  obtain ⟨-, count, file⟩ := backed.fWrite_eq _ _ (written buf btw) isOpen
  simp only [sysWrite, element, Prod.mk.injEq] at result
  obtain ⟨rfl, rfl⟩ := result
  generalize before : backed.file machine.volume machine.proc.stdout = now at contents atEnd count file
  have stored : (written buf btw).take bw.toNat = now.accepted (written buf btw) := by
    rw [← Option.some.inj counted, count]
    exact ByteFile.take_accepted
  have end_ : now.position = now.size := by rw [atEnd, ByteFile.size, contents]
  obtain ⟨appended, last⟩ : (now.write (written buf btw)).contents =
      now.contents ++ now.accepted (written buf btw) ∧ _ := ByteFile.write_at_end end_
  rw [stored]
  have all : wroteAll (.wrote (now.accepted (written buf btw)) :: history) =
    wroteAll history ++ now.accepted (written buf btw) := rfl
  refine ⟨(fs.isOpen_fWrite _ _ _ _).trans isOpen, second, ?_, ?_, ?_, ?_, dueEq⟩
  · dsimp only
    rw [file, appended, contents, all]
  · dsimp only
    rw [file, last, ByteFile.size, appended, contents, all]
  · dsimp only
    rw [all, List.length_append]
    omega
  · dsimp only
    rw [all, List.take_append_of_le_length behind, shown]
    rfl

/-- A print reads exactly what was written since the print before it. -/
theorem OutputFile.print {stray : Int → Option Fil} (output : OutputFile backed machine history)
    (printed : printSTDOUT fs stray machine = some (block, after)) :
    OutputFile backed after (.shown block :: history) := by
  have element : machine.proc.fileDescriptors.get stray 1 = some machine.proc.stdout :=
    output.element
  obtain ⟨isOpen, second, contents, atEnd, behind, shown, dueEq⟩ := output
  have inside : machine.proc.stdoutReadPtr ≤ (backed.file machine.volume machine.proc.stdout).size := by
    rwa [ByteFile.size, contents]
  obtain ⟨stillOpen, rest, kept⟩ := fetched backed isOpen inside
  simp only [printSTDOUT, element, Option.bind_eq_bind, Option.bind_some, Option.some.injEq, Prod.mk.injEq] at printed
  rw [contents] at rest
  obtain ⟨rfl, rfl⟩ := printed
  have whole : shownAll history ++ (wroteAll history).drop machine.proc.stdoutReadPtr = wroteAll history := by
    rw [← shown]
    exact List.take_append_drop _ _
  have caught : machine.proc.stdoutReadPtr +
      ((wroteAll history).drop machine.proc.stdoutReadPtr).length = (wroteAll history).length := by
    rw [List.length_drop]
    omega
  refine ⟨stillOpen, second, ?_, ?_, ?_, ?_, ?_⟩
  · dsimp only
    rw [kept]
    exact contents
  · dsimp only
    rw [kept]
    exact atEnd
  · dsimp only
    rw [rest, caught]
    exact Nat.le_refl _
  · dsimp only
    rw [rest, caught, shownAll, whole]
    exact List.take_length
  · rw [shownAll, rest, whole]
    rfl

theorem Printing.outputFile (backed : ByteBacked fs) (printing : Printing fs machine history) :
    OutputFile backed machine history := by
  induction printing with
  | created created => exact Printing.start backed created
  | write stray buf btw _ result counted ih => exact ih.write result counted
  | print stray _ printed ih => exact ih.print printed

end Output

/-- Prints show what was written before the last of them, each byte once and in order,
and the file keeps everything that was written. -/
theorem stdout_shown_once {Volume : Type} {fs : Library Volume} {machine : Machine Volume}
    {history : List Output} (backed : ByteBacked fs) (printing : Printing fs machine history) :
    shownAll history = due history ∧ (backed.file machine.volume machine.proc.stdout).contents = wroteAll history :=
  ⟨(printing.outputFile backed).due, (printing.outputFile backed).contents⟩

/-- Two writes, a print, a third write. -/
theorem stdout_shown_once_interleaved :
    ∃ machine history, Printing memory machine history ∧ wroteAll history = [1, 2, 3] ∧
      shownAll history = [1, 2] ∧ shownAll history = due history := by
  have created : ∃ machine, createStreams memory (fun _ => none) 0 = some machine := ⟨_, rfl⟩
  obtain ⟨machine, created⟩ := created
  have start : Printing memory machine [] := .created created
  cases created
  have one := start.write (fun _ => none) (fun _ => 1) 1 rfl rfl
  have two := one.write (fun _ => none) (fun _ => 2) 1 rfl rfl
  have shown := two.print (fun _ => none) rfl
  have three := shown.write (fun _ => none) (fun _ => 3) 1 rfl rfl
  exact ⟨_, _, three, by decide, by decide, (stdout_shown_once memoryBacked three).1⟩

end LunaOS.StandardStreams
