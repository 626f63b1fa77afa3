import WillowOS.Loader.Image
import WillowOS.Scheduler.Ring
import WillowOS.Vm.KernelHalf

/-!
# Threads and their address spaces

The scheduler and the tables together. A thread has a table of its own, made by
`create_new_userspace_page_table` with the upper half of the kernel's, and an array with the
addresses it has mapped. `hot_exec_elf` loads a program into a new table, and `scheduler_return`
unmaps what the thread has recorded, after `unload_elf` has freed and unmapped the pages of its
program; of the tables it frees the root.

`map_page` and `unmap_page` find the array by `running_thread`. `hot_exec_elf` calls them for the
table of a thread that is not running yet; `scheduler_return` moves `running_thread` back to the
thread that exits while it calls them.

A system call is made by the running thread, with its table loaded. What the threads allocate
on the heap is not looked at.
-/

namespace WillowOS

namespace Loader

open Paging Vm

open Frames hiding State

/-- A turn of the loops of `unload_elf`: `free_frame(virt_to_phys_page(…))` and
`unmap_page(…)`. -/
def unloadPage (cr3 : ℕ) (s : State) (virtAddress : ℕ) : Option State :=
  (freeFrame s.phys (maskFlags (virtToPhys s.phys.mem virtAddress cr3))).bind fun phys =>
    unmapNext cr3 { s with phys := phys } virtAddress

/-- `unload_elf`. -/
def unloadElf (file : Mem) (cr3 : ℕ) (s : State) : Option State :=
  ((ptLoad file).flatMap unloadAddresses).foldlM (unloadPage cr3) s

end Loader

namespace Threads

open Paging Vm Loader Scheduler

open Frames hiding State

/-- The fields of a `thread_context` for its address space. -/
structure ThreadSpace where
  cr3 : ℕ
  mappings : ThreadMappings
  elfEntry : ℕ
  /-- The file, if `elf_file` is not `NULL`. -/
  elfFile : Option Mem

/-- The threads, the memory, and the root of the kernel's table. -/
structure System where
  sched : Sched
  phys : Phys
  schedulingStarted : Bool
  space : ℕ → ThreadSpace
  pml4AddressGlob : ℕ

/-- `create_new_userspace_page_table`: the root is cleared, and its upper half is copied. -/
def createNewUserspacePageTable (pml4Address : ℕ) (s : Phys) : ℕ × Phys :=
  let frame := allocFrame s
  let m := frame.2.mem.memset frame.1 0 4096
  (frame.1, { frame.2 with
    mem := fun x =>
      if frame.1 + 2048 ≤ x ∧ x < frame.1 + 4096 then m (pml4Address + (x - frame.1)) else m x })

namespace System

/-- What `map_page` and `unmap_page` work on. -/
def paging (s : System) : State :=
  ⟨s.phys, s.schedulingStarted, (s.space s.sched.runningThread).mappings⟩

/-- The state after them. -/
def store (s : System) (p : State) : System :=
  { s with
    phys := p.phys
    space := Function.update s.space s.sched.runningThread
      { s.space s.sched.runningThread with mappings := p.mappings } }

/-- `hot_exec_elf`, with the context at `t`. -/
def hotExecElf (s : System) (t pid : ℕ) (file : Mem) : Option System :=
  let newCr3 := createNewUserspacePageTable s.pml4AddressGlob s.phys
  let s := { s with phys := newCr3.2 }
  (loadElf file newCr3.1 s.paging).map fun r =>
    let s := s.store r.2
    { s with
      sched := s.sched.hotExecElf t pid
      space := Function.update s.space t ⟨newCr3.1, noRecords, r.1, some file⟩ }

/-- `hot_create_and_push_thread`, with the context at `t`. -/
def hotCreateAndPushThread (s : System) (t pid : ℕ) : System :=
  let newCr3 := createNewUserspacePageTable s.pml4AddressGlob s.phys
  { s with
    sched := s.sched.hotCreateAndPushThread t pid
    phys := newCr3.2
    space := Function.update s.space t ⟨newCr3.1, noRecords, 0, none⟩ }

/-- `sys_vm_map`. -/
def sysVmMap (s : System) (hint size : ℕ) (prot flags : BitVec 32) : Option System :=
  if s.sched.runningThread = 0 then none
  else (Vm.sysVmMap s.paging (s.space s.sched.runningThread).cr3 hint size prot flags).map
    fun r => s.store r.2

/-- `sys_vm_unmap`. -/
def sysVmUnmap (s : System) (pointer size : ℕ) : Option System :=
  if s.sched.runningThread = 0 then none
  else (syscall8 s.paging (s.space s.sched.runningThread).cr3 pointer size).map
    fun r => s.store r.2

/-- `reschedule`. -/
def reschedule (s : System) (fuel : ℕ) : Option System :=
  (s.sched.reschedule fuel).map fun r => { s with sched := r.1, schedulingStarted := true }

/-- A turn of the loop of `scheduler_return` over the records. -/
def unmapEntry (cr3 : ℕ) (s : State) (i : ℕ) : Option State :=
  let entry := s.mappings.mappedVirtAddressesArray i
  if entry.used then unmapNext cr3 s entry.virtAddress else some s

/-- The loop of `scheduler_return` over the records. -/
def unmapRecorded (cr3 : ℕ) (s : State) : Option State :=
  (List.range s.mappings.maxMappings).foldlM (unmapEntry cr3) s

/-- What `scheduler_return` does to the memory before it gives up the thread. -/
def releaseSpace (space : ThreadSpace) (s : State) : Option Phys :=
  (match space.elfFile with
    | some file => if space.elfEntry ≠ 0 then unloadElf file space.cr3 s else some s
    | none => some s).bind fun s =>
      (unmapRecorded space.cr3 s).bind fun s => freeFrame s.phys space.cr3

/-- `scheduler_return`, with the context of the idle thread at `idle`, if one is made. -/
def schedulerReturn (s : System) (idle fuel : ℕ) : Option System :=
  (s.sched.schedulerReturn fuel idle).bind fun r =>
    (releaseSpace (s.space s.sched.runningThread) s.paging).map fun phys =>
      if idle ∈ r.1.threads then
        let newCr3 := createNewUserspacePageTable s.pml4AddressGlob phys
        { s with
          sched := r.1
          phys := newCr3.2
          space := Function.update s.space idle ⟨newCr3.1, noRecords, 0, none⟩ }
      else { s with sched := r.1, phys := phys }

end System

/-- What may happen. -/
inductive Event where
  | hotExecElf (t pid : ℕ) (file : Mem)
  | hotCreateAndPushThread (t pid : ℕ)
  | sysVmMap (hint size : ℕ) (prot flags : BitVec 32)
  | sysVmUnmap (pointer size : ℕ)
  | reschedule (fuel : ℕ)
  | schedulerReturn (idle fuel : ℕ)

/-- A step: contexts are allocated where none is. -/
def step (s : System) : Event → Option System
  | .hotExecElf t pid file =>
    if (Call.hotExecElf t pid).Fresh s.sched then s.hotExecElf t pid file else none
  | .hotCreateAndPushThread t pid =>
    if (Call.hotCreateAndPushThread t pid).Fresh s.sched then
      some (s.hotCreateAndPushThread t pid) else none
  | .sysVmMap hint size prot flags => s.sysVmMap hint size prot flags
  | .sysVmUnmap pointer size => s.sysVmUnmap pointer size
  | .reschedule fuel => s.reschedule fuel
  | .schedulerReturn idle fuel =>
    if (Call.schedulerReturn idle fuel).Fresh s.sched then s.schedulerReturn idle fuel else none

end Threads

end WillowOS
