import WillowOS.Paging.Range

/-!
# Virtual memory as programs see it

What the kernel does for a program that asks for memory, `syscall7` and `syscall8`, with the
part the hardware has in it. The kernel writes the tables through the direct map, and clears
the new pages through the tables it has written: a byte at a virtual address is the one the
*hardware* walk leads to (`WillowOS.Vm.mmuTranslate`), which looks at the present bits and at
those of huge pages, and at bits 12 to 51 of an entry – while the walks of the kernel take all
bits from 12 on.

A call is `none` when it does not come back. That is so when an assertion fails, when an
access faults, and when the kernel follows an entry that is no address of a table: from 2⁴⁷
on, an address added to `hhdm_offset` is not canonical (`WillowOS.Vm.directMapped`). The write
permission of the pages the kernel clears is not looked at.

The arguments of `syscall7` come in a structure in the memory of the caller, which is supposed
not to lie in the pages that are mapped.
-/

namespace WillowOS

namespace Vm

open Paging

open Frames hiding State

/-! ### The hardware -/

/-- The frame an entry points to, for the hardware. -/
def frameNumber (entry : ℕ) : ℕ := entry / 4096 % 2 ^ 40

/-- The bit of an entry that makes it map a huge page. -/
def HugePage (entry : ℕ) : Prop := entry / 128 % 2 = 1

instance (entry : ℕ) : Decidable (HugePage entry) := inferInstanceAs (Decidable (_ = _))

/-- An address of 48 bits, extended with its sign. -/
def Canonical (w : ℕ) : Prop := w < 2 ^ 47 ∨ 2 ^ 64 - 2 ^ 47 ≤ w

instance (w : ℕ) : Decidable (Canonical w) := inferInstanceAs (Decidable (_ ∨ _))

/-- **The walk of the hardware**: the physical address of a byte, if there is one. -/
def mmuTranslate (m : Mem) (cr3 w : ℕ) : Option ℕ :=
  let e₄ := readEntry m cr3 (pml4Index w)
  let e₃ := readEntry m (4096 * frameNumber e₄) (pdptIndex w)
  let e₂ := readEntry m (4096 * frameNumber e₃) (pdIndex w)
  let e₁ := readEntry m (4096 * frameNumber e₂) (ptIndex w)
  if ¬Canonical w ∨ ¬Present e₄ ∨ ¬Present e₃ then none
  else if HugePage e₃ then some (e₃ / 2 ^ 30 % 2 ^ 22 * 2 ^ 30 + w % 2 ^ 30)
  else if ¬Present e₂ then none
  else if HugePage e₂ then some (e₂ / 2 ^ 21 % 2 ^ 31 * 2 ^ 21 + w % 2 ^ 21)
  else if ¬Present e₁ then none
  else some (4096 * frameNumber e₁ + w % 4096)

/-- A byte read. -/
def loadByte (m : Mem) (cr3 w : ℕ) : Option UInt8 := (mmuTranslate m cr3 w).map m

/-- A byte written. -/
def storeByte (m : Mem) (cr3 w : ℕ) (b : UInt8) : Option Mem :=
  (mmuTranslate m cr3 w).map fun a => (Function.update (m : ℕ → UInt8) a b : ℕ → UInt8)

/-- Bytes written one after the other: the loop of `memset` and of `memcpy`. -/
def storeBytes (m : Mem) (cr3 virtAddress : ℕ) (b : ℕ → UInt8) (n : ℕ) : Option Mem :=
  (List.range n).foldlM (fun m i => storeByte m cr3 ((virtAddress + i) % 2 ^ 64) (b i)) m

/-- A 64-bit word read, lowest byte first. -/
def load64 (m : Mem) (cr3 w : ℕ) : Option ℕ :=
  (List.range 8).foldrM (fun i v => (loadByte m cr3 ((w + i) % 2 ^ 64)).map fun b =>
    b.toNat + 256 * v) 0

/-! ### Mapping a range -/

/-- The tables the direct map reaches. -/
def directMapped (table : ℕ) : Bool := table < 2 ^ 47

/-- `map_page` does not fault: each of the three tables it goes down to is reached. -/
def mapPageReaches (s : Phys) (pml4Address virtAddress permissions : ℕ) : Bool :=
  let e₄ := ensureEntry s pml4Address (pml4Index virtAddress) permissions
  let e₃ := ensureEntry e₄.2 (maskFlags e₄.1) (pdptIndex virtAddress) permissions
  let e₂ := ensureEntry e₃.2 (maskFlags e₃.1) (pdIndex virtAddress) permissions
  directMapped (maskFlags e₄.1) && directMapped (maskFlags e₃.1) && directMapped (maskFlags e₂.1)

/-- One turn of the loops of `map_range`: a frame is allocated and mapped, and the flag goes
into the record. -/
def mapNext (pml4Address permissions flag : ℕ) (s : State) (virtAddress : ℕ) : Option State :=
  let frame := allocFrame s.phys
  let s := { s with phys := frame.2 }
  if mapPageReaches s.phys pml4Address virtAddress permissions then
    let r := mapPage s pml4Address frame.1 virtAddress permissions
    let array := r.2.mappings.mappedVirtAddressesArray
    some (if s.schedulingStarted then
      { r.2 with mappings := { r.2.mappings with
          mappedVirtAddressesArray := Function.update array r.1 { array r.1 with flag := flag } } }
    else r.2)
  else none

/-- `EINVAL`. -/
def einval : ℕ := 22

/-- `map_range`. -/
def mapRange (s : State) (pml4Address virtAddress permissions size flag : ℕ) :
    Option (ℕ × State) :=
  if size = 0 then some (einval, s)
  else ((mapRangeAddresses virtAddress size).foldlM (mapNext pml4Address permissions flag) s).map
    fun s => (0, s)

/-- `unmap_page`, when it does not fault. -/
def unmapNext (pml4Address : ℕ) (s : State) (virtAddress : ℕ) : Option State :=
  let t := walkTables s.phys.mem pml4Address virtAddress
  if directMapped t.1 && directMapped t.2.1 && directMapped t.2.2 then
    some (unmapPage s pml4Address virtAddress)
  else none

/-! ### The system calls -/

/-- `syscall7`, on the table and the mappings of the caller: what it returns, and the state.
Its test of the alignment is `virt_address & (0xfff != 0)`, that is `virt_address & 1`. -/
def syscall7 (s : State) (cr3 virtAddress permissions size flag : ℕ) : Option (ℕ × State) :=
  if virtAddress % 2 ≠ 0 then some (einval, s)
  else
    (mapRange s cr3 virtAddress permissions size flag).bind fun r =>
      (storeBytes r.2.phys.mem cr3 virtAddress (fun _ => 0) size).bind fun m =>
        (load64 m cr3 ((virtAddress + 8 * 256) % 2 ^ 64)).bind fun word =>
          if word ≠ 0 then none
          else some (r.1, { r.2 with phys := { r.2.phys with mem := m } })

/-- The pages `syscall8` counts: its first test has no effect, since the second one is not an
`else` of it. -/
def unmapCount (size : ℕ) : ℕ :=
  if size ≤ 0x1000 then 1
  else if size % 0x1000 = 0 then size / 0x1000
  else size / 0x1000 + 1

/-- `syscall8`. -/
def syscall8 (s : State) (cr3 pointer size : ℕ) : Option (ℕ × State) :=
  if pointer = 0 then none
  else ((pagesFrom pointer (unmapCount size)).foldlM (unmapNext cr3) s).map fun s => (0, s)

/-- The permissions `sys_vm_map` computes. -/
def protPermissions (prot : BitVec 32) : ℕ :=
  let perm := 0
  let perm := if prot.getLsbD 0 then perm &&& 0 else perm ||| (2 ^ 64 - 2)
  let perm := if prot.getLsbD 1 then perm ||| 2 else perm
  let perm := if prot.getLsbD 2 then perm else perm ||| 2 ^ 63
  perm ||| 1

/-- `sys_vm_map`: what it returns, and the state. The two branches for `MAP_ANON` and for
`MAP_FIXED` are the same. `syscall7` returns without setting `error` for an odd address. For
other flags nothing is mapped, and the value returned is not set. -/
def sysVmMap (s : State) (cr3 hint size : ℕ) (prot flags : BitVec 32) : Option (ℕ × State) :=
  let flag := if flags.toNat % 16 = 1 then 1 else if flags.toNat % 16 = 2 then 2 else 0
  if flags.toNat / 16 % 16 = 2 ∨ flags.toNat / 16 % 16 = 1 then
    (syscall7 s cr3 hint (protPermissions prot) size flag).map fun r =>
      if hint % 2 ≠ 0 then (0, r.2) else r
  else none

end Vm

end WillowOS
