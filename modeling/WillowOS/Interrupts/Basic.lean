import WillowOS.Futex
import WillowOS.Heap.Chunk
import WillowOS.Lib.Flag
import WillowOS.Scheduler.Basic
import WillowOS.Tmpfs.Directory
import WillowOS.Vm.Basic

/-!
# Functions that disable interrupts

Fifteen functions of the kernel disable interrupts while they run. They save the flag first,
with `irq_disable_save`, and enable interrupts again before they return if it was set, with
`irq_restore` – which never disables them. They are translated here as programs on one record
of the kernel, statement by statement as far as their ways out are concerned, with the data
they work on as in the other parts of this development.

A program does not return when it halts, faults or fails an assertion. What it prints, and the
mutexes it holds meanwhile, do not touch the flag, except that `kprintf` saves and restores it
itself. `block_thread` on the calling thread ends in an interrupt that switches threads, and
is left out.
-/

namespace WillowOS

namespace Interrupts

open Heap (HeapPage)

open Frames (Phys Region allocFrame)

open Paging (ThreadMappings)

open Scheduler (Sched)

open Tmpfs (TmpfsDirectory TmpfsObject)

/-- What the functions work on. -/
structure Kernel where
  /-- Bit 9 of the flags register. -/
  interruptFlag : Bool
  /-- The nodes of the heap. -/
  heap : List HeapPage
  phys : Phys
  schedulingStarted : Bool
  sched : Sched
  /-- The tables of the threads. -/
  cr3 : ℕ → ℕ
  mappings : ℕ → ThreadMappings
  /-- The blocks of the heap the mappings of the threads are in. -/
  mappedVirtAddressesArray : ℕ → ℕ
  objects : ℕ → TmpfsObject
  /-- The blocks of the heap the slots of directories are in. -/
  filesBlock : ℕ → ℕ
  futex : Futex.State
  /-- The block of the heap `global_futex_array` points to. -/
  globalFutexArray : ℕ
  /-- The blocks of the heap the threads of a queue are in. -/
  threadsBlock : ℕ → ℕ

/-- A program on the kernel. -/
abbrev K (α : Type) := Prog Kernel α

/-! ### The flag -/

/-- `irq_disable_save`: the value saved. -/
def irqDisableSave : K Bool := do
  let s ← get
  modify fun s => { s with interruptFlag := false }
  return s.interruptFlag

/-- `irq_restore`. -/
def irqRestore (status : Bool) : K Unit :=
  if status then modify fun s => { s with interruptFlag := true } else pure ()

/-- `kprintln`, and `kprintf_interruptable`. -/
def kprintln : K Unit := pure ()

/-- `kprintf`. -/
def kprintf : K Unit := do
  let irqStatus ← irqDisableSave
  irqRestore irqStatus

/-- `assert`, which prints and loops. -/
def assert (expression : Bool) : K Unit :=
  if expression then pure () else do
    kprintf
    failure

/-- A call goes on under a condition only. -/
def check (condition : Bool) : K Unit := if condition then pure () else failure

/-- An address that is followed: a null pointer faults. -/
def nonNull (address : ℕ) : K Unit := check (address ≠ 0)

/-! ### The heap -/

/-- The loop of `kmalloc` over `current`, with the node list from there on. -/
def kmallocLoop (irq : Bool) (size : ℕ) : List HeapPage → ℕ → ℕ → K ℕ
  | [], _, _ => do
    kprintln
    irqRestore irq
    return 0
  | p :: ps, pos, index =>
    if p.status = 0 then
      match Heap.probe (size - 1) (p :: ps) with
      | .heapIsFull => do
        kprintln
        irqRestore irq
        return 0
      | .doesNotFit => kmallocLoop irq size ps (pos + 1) index
      | .reached status =>
        if status = 0 then do
          modify fun s =>
            { s with heap := Heap.setAllocLength size pos (Heap.setStatus 1 pos size s.heap) }
          irqRestore irq
          return Heap.heapStart + index * Heap.heapChunkSize
        else kmallocLoop irq size ps (pos + 1) (index + 1)
    else kmallocLoop irq size ps (pos + 1) (index + 1)

def kmalloc (size : ℕ) : K ℕ := do
  let irq ← irqDisableSave
  if size = 0 then do
    kprintln
    irqRestore irq
    return 0
  else do
    let s ← get
    kmallocLoop irq size s.heap 0 0

def kfree (virtAddress : ℕ) : K Unit := do
  let irq ← irqDisableSave
  let s ← get
  let heap ← (liftM (Heap.kfree s.heap virtAddress) : K _)
  modify fun s => { s with heap := heap }
  irqRestore irq

def kmallocByte (size : ℕ) : K ℕ := do
  let irq ← irqDisableSave
  if size = 0 then do
    irqRestore irq
    kmalloc 0
  else if size ≤ 64 then do
    irqRestore irq
    kmalloc 1
  else if size % 64 = 0 then do
    irqRestore irq
    kmalloc (size / 64)
  else do
    irqRestore irq
    kmalloc (size / 64 + 1)

def kmallocByteInterruptable (size : ℕ) : K ℕ :=
  if size = 0 then kmalloc 0
  else if size ≤ 64 then kmalloc 1
  else if size % 64 = 0 then kmalloc (size / 64)
  else kmalloc (size / 64 + 1)

/-- `krealloc_byte`; what the blocks hold is not part of the record. -/
def kreallocByte (virtAddress size : ℕ) : K ℕ := do
  let irq ← irqDisableSave
  let ret ← kmallocByteInterruptable size
  if ret = 0 then do
    irqRestore irq
    return ret
  else if virtAddress = 0 then do
    irqRestore irq
    return ret
  else do
    let s ← get
    -- the walk to the node of the block, which must not run off the list
    let _ ← (liftM s.heap[Heap.chunkIndex virtAddress]? : K _)
    kfree virtAddress
    irqRestore irq
    return ret

/-! ### Frames and pages -/

/-- The test of `free_frame` for a frame that is free. -/
def assertAllocated (r : Region) (physAddress : ℕ) : K Unit :=
  if r.frameBitmap (r.frameIndex physAddress) = 0 then do
    kprintf
    assert false
  else pure ()

/-- The loop of `free_frame`, over the regions from `current` on; `before` are those passed, the
last one first. -/
def freeFrameLoop (irq : Bool) (physAddress : ℕ) (before : List Region) : List Region → K Unit
  | [] => irqRestore irq
  | [r] => do
    modify fun s => { s with phys := { s.phys with
      regions := before.reverse ++ [r.setFrame (r.frameIndex physAddress) 0] } }
    irqRestore irq
  | r :: next :: rs =>
    if r.base ≤ physAddress ∧ physAddress < next.base then do
      assertAllocated r physAddress
      modify fun s => { s with phys := { s.phys with
        regions := before.reverse ++ r.setFrame (r.frameIndex physAddress) 0 :: next :: rs } }
      irqRestore irq
    else if (r.base + r.length) % 2 ^ 64 < physAddress then
      freeFrameLoop irq physAddress (r :: before) (next :: rs)
    else failure

def freeFrame (physAddress : ℕ) : K Unit := do
  let irq ← irqDisableSave
  if physAddress % 4096 ≠ 0 then do
    kprintf
    assert false
  else do
    let s ← get
    freeFrameLoop irq physAddress [] s.phys.regions

/-- The growth of the array of mappings in `map_page`. -/
def growArray (t : ℕ) (mp : ThreadMappings) : K Unit :=
  if mp.numMappings = mp.maxMappings then do
    let s ← get
    let array ← kreallocByte (s.mappedVirtAddressesArray t) ((mp.maxMappings + 8) * 24)
    nonNull array
    modify fun s =>
      { s with mappings := Function.update s.mappings t (Paging.growMappings mp)
               mappedVirtAddressesArray := Function.update s.mappedVirtAddressesArray t array }
  else pure ()

/-- The bookkeeping of `map_page`. -/
def recordMapping (virtAddress : ℕ) : K ℕ := do
  let s ← get
  nonNull s.sched.runningThread
  let u := Paging.useMapping (s.mappings s.sched.runningThread) virtAddress
  modify fun s => { s with mappings := Function.update s.mappings s.sched.runningThread u.2 }
  growArray s.sched.runningThread u.2
  return u.1

/-- `map_page`: once scheduling has started it returns without restoring the flag. -/
def mapPage (pml4Address physAddress virtAddress permissions : ℕ) : K ℕ := do
  let irq ← irqDisableSave
  let s ← get
  check (Vm.mapPageReaches s.phys pml4Address virtAddress permissions)
  modify fun s =>
    { s with phys := Paging.mapTables s.phys pml4Address physAddress virtAddress permissions }
  if s.schedulingStarted then recordMapping virtAddress
  else do
    irqRestore irq
    return 2 ^ 64 - 1

/-- The bookkeeping of `unmap_page`. -/
def recordUnmapping (virtAddress : ℕ) : K Unit := do
  let s ← get
  if s.schedulingStarted then do
    nonNull s.sched.runningThread
    modify fun s => { s with
      mappings := Function.update s.mappings s.sched.runningThread
        (Paging.clearMapping (s.mappings s.sched.runningThread) virtAddress) }
  else pure ()

def unmapPage (pml4Address virtAddress : ℕ) : K Unit := do
  let irq ← irqDisableSave
  let s ← get
  let t := Paging.walkTables s.phys.mem pml4Address virtAddress
  check (Vm.directMapped t.1 && Vm.directMapped t.2.1 && Vm.directMapped t.2.2)
  modify fun s => { s with phys := { s.phys with
    mem := Paging.unmapTables s.phys.mem pml4Address virtAddress } }
  recordUnmapping virtAddress
  irqRestore irq

def changePageMap (cr3 virtAddress permissions : ℕ) : K Unit := do
  let irq ← irqDisableSave
  modify fun s => { s with phys := { s.phys with
    mem := Paging.changePageMap s.phys.mem cr3 virtAddress permissions } }
  irqRestore irq

/-- One turn of the loops of `map_range`. -/
def mapNext (pml4Address permissions flag virtAddress : ℕ) : K Unit := do
  let s ← get
  let frame := allocFrame s.phys
  modify fun s => { s with phys := frame.2 }
  let ret ← mapPage pml4Address frame.1 virtAddress permissions
  if s.schedulingStarted then
    modify fun s =>
      let t := s.sched.runningThread
      let array := (s.mappings t).mappedVirtAddressesArray
      { s with mappings := Function.update s.mappings t { s.mappings t with
          mappedVirtAddressesArray := Function.update array ret { array ret with flag := flag } } }
  else pure ()

def mapRange (pml4Address virtAddress permissions size flag : ℕ) : K ℕ :=
  if size = 0 then return Vm.einval
  else do
    (Paging.mapRangeAddresses virtAddress size).forM (mapNext pml4Address permissions flag)
    return 0

/-- The test of `syscall7` for memory that was not cleared. -/
def assertCleared (word : ℕ) : K Unit :=
  if word ≠ 0 then do
    kprintf
    assert false
  else pure ()

/-- `syscall7`: on an odd address it returns without restoring the flag. -/
def syscall7 (virtAddress permissions size flag : ℕ) : K ℕ := do
  let irq ← irqDisableSave
  if virtAddress % 2 ≠ 0 then return Vm.einval
  else do
    let s ← get
    nonNull s.sched.runningThread
    let cr3 := s.cr3 s.sched.runningThread
    let error ← mapRange cr3 virtAddress permissions size flag
    let s ← get
    let m ← (liftM (Vm.storeBytes s.phys.mem cr3 virtAddress (fun _ => 0) size) : K _)
    modify fun s => { s with phys := { s.phys with mem := m } }
    let word ← (liftM (Vm.load64 m cr3 ((virtAddress + 8 * 256) % 2 ^ 64)) : K _)
    assertCleared word
    irqRestore irq
    return error

/-! ### Files -/

/-- `sizeof(tmpfs_file_t)`, which is also that of a `tmpfs_directory_t`. -/
def sizeofTmpfsObject : ℕ := 1256

/-- `sizeof(mutex_t)`. -/
def sizeofMutex : ℕ := 16

/-- The directory at an address. -/
def directory (dir : ℕ) : K TmpfsDirectory := do
  let s ← get
  match s.objects dir with
  | .directory _ d => return d
  | .file .. => failure

/-- The growth of the array of a directory that is full. -/
def growFiles (dir : ℕ) (d : TmpfsDirectory) : K Unit :=
  if d.numFiles + 1 = d.maxFiles then do
    let s ← get
    let block ← kreallocByte (s.filesBlock dir) ((d.maxFiles + 32) * 8)
    nonNull block
    modify fun s => { s with filesBlock := Function.update s.filesBlock dir block }
  else pure ()

/-- The end of the two functions that create: the object is put into the directory. -/
def addObject (dir object : ℕ) : K Unit := do
  let d ← directory dir
  growFiles dir d
  modify fun s => { s with
    objects := Function.update s.objects dir
      (.directory (s.objects dir).name (Tmpfs.addObject d object)) }

def tmpfsCreateFile (dir : ℕ) (name : CString) (size : ℕ) : K ℕ := do
  let irq ← irqDisableSave
  let newFile ← kmallocByte sizeofTmpfsObject
  nonNull newFile
  let mutex ← kmallocByte sizeofMutex
  nonNull mutex
  let data ← kmallocByte size
  modify fun s => { s with objects := Function.update s.objects newFile (.file name size data 0) }
  addObject dir newFile
  irqRestore irq
  return newFile

def tmpfsCreateDirectory (dir : ℕ) (name : CString) : K ℕ := do
  let irq ← irqDisableSave
  let newDir ← kmallocByte sizeofTmpfsObject
  nonNull newDir
  let mutex ← kmallocByte sizeofMutex
  nonNull mutex
  let files ← kmallocByte (32 * 8)
  nonNull files
  modify fun s =>
    { s with objects := Function.update s.objects newDir (.directory name Tmpfs.newDirectory)
             filesBlock := Function.update s.filesBlock newDir files }
  addObject dir newDir
  irqRestore irq
  return newDir

/-! ### Threads -/

/-- The loop of `block_thread`: the flag is saved again in each turn, into the same
variable. -/
def blockThreadLoop (pid : ℕ) : ℕ → ℕ → Bool → K ℕ
  | 0, _, irq => do
    kprintln
    irqRestore irq
    return 0
  | n + 1, currentThread, _ => do
    let irq ← irqDisableSave
    nonNull currentThread
    let s ← get
    if s.sched.pid currentThread = pid then
      if s.sched.blocked currentThread then do
        kprintln
        irqRestore irq
        return 0
      else do
        modify fun s => { s with sched := s.sched.setStatus3 currentThread true }
        kprintln
        -- the calling thread is not blocked here
        check (pid ≠ s.sched.pid s.sched.runningThread)
        irqRestore irq
        return currentThread
    else blockThreadLoop pid n (s.sched.next currentThread) irq

def blockThread (pid : ℕ) : K ℕ := do
  let irq ← irqDisableSave
  let s ← get
  blockThreadLoop pid (s.sched.numThreads + 1) s.sched.runningThread irq

def unblockThread (thread : ℕ) : K Unit := do
  let irq ← irqDisableSave
  nonNull thread
  modify fun s => { s with sched := s.sched.unblockThread thread }
  kprintln
  irqRestore irq

/-- The loop of `get_thread_by_pid`: it returns from inside without restoring the flag. -/
def getThreadByPidLoop (irq : Bool) (pid : ℕ) : ℕ → ℕ → K ℕ
  | 0, _ => do
    kprintln
    irqRestore irq
    return 0
  | n + 1, currentThread => do
    nonNull currentThread
    let s ← get
    if s.sched.pid currentThread = pid then return currentThread
    else getThreadByPidLoop irq pid n (s.sched.next currentThread)

def getThreadByPid (pid : ℕ) : K ℕ := do
  let irq ← irqDisableSave
  let s ← get
  getThreadByPidLoop irq pid (s.sched.numThreads + 1) s.sched.runningThread

/-! ### Futexes -/

/-- `sizeof(futex_queue_t)`. -/
def sizeofFutexQueue : ℕ := 32

/-- The reallocation of the array in the loop of `futex_enqueue`. -/
def growFutexArray (found : Bool) : K Unit := do
  let s ← get
  if found ∧ s.futex.globalFutexArraySize - 1 ≠ 0 then do
    let block ← kreallocByte s.globalFutexArray (s.futex.globalFutexArraySize + 128)
    nonNull block
    modify fun s => { s with globalFutexArray := block }
  else pure ()

/-- The loop of `futex_enqueue`, and the queue made if it finds none. -/
def futexQueue (null : Option ℕ) (pointer : ℕ) : K ℕ := do
  let s ← get
  let p ← (liftM (Futex.queuePointer s.futex null (s.futex.globalFutexArray 0)) : K _)
  growFutexArray (p = pointer)
  let found ← (liftM (Futex.findQueue s.futex null pointer) : K _)
  modify fun s => { s with futex := found.2 }
  if found.1 = 0 then do
    let queue ← kmallocByteInterruptable sizeofFutexQueue
    nonNull queue
    let threads ← kmallocByteInterruptable (64 * 8)
    modify fun s =>
      { s with futex := { s.futex with
                 queues := Function.update s.futex.queues queue (some ⟨pointer, fun _ => 0, 0, 64⟩)
                 globalFutexArray := Function.update s.futex.globalFutexArray 0 queue }
               threadsBlock := Function.update s.threadsBlock queue threads }
    return queue
  else return found.1

/-- The growth of a queue that is full. -/
def growThreads (address : ℕ) (queue : Futex.FutexQueue) : K Unit :=
  if queue.size = queue.maxSize then do
    let s ← get
    let block ← kreallocByte (s.threadsBlock address) ((queue.maxSize + 64) * 8)
    modify fun s => { s with threadsBlock := Function.update s.threadsBlock address block }
  else pure ()

def futexEnqueue (null : Option ℕ) (pointer thread : ℕ) : K ℕ := do
  let irq ← irqDisableSave
  let address ← futexQueue null pointer
  let s ← get
  let queue ← (liftM (s.futex.queues address) : K _)
  growThreads address queue
  let s ← get
  nonNull (s.threadsBlock address)
  modify fun s => { s with futex := { s.futex with
    queues := Function.update s.futex.queues address (some (queue.push thread)) } }
  irqRestore irq
  return 0

end Interrupts

end WillowOS
