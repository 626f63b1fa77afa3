import WillowOS.Lib.BitField
import Mathlib.Logic.Function.Basic

/-!
# Segment and gate descriptors

The processor finds segments, the task state and interrupt handlers through descriptors, in which
addresses and limits are spread over several fields: three or four for a base, two for a limit,
three for the address of a handler. `create_descriptor`, `create_tss_descriptor` and
`idt_set_descriptor` cut the numbers into these fields.

How the processor reads the fields is written down apart from that
(`WillowOS.DescriptorTables.decodeSegment`, `WillowOS.DescriptorTables.decodeSystem`,
`WillowOS.DescriptorTables.decodeGate`), and what it reads is what was encoded:
**`WillowOS.DescriptorTables.descriptors_decode`**. So `idt_init` leaves a gate for each of the 256
vectors that leads to its handler (`WillowOS.DescriptorTables.idtInit_decode`).
-/

namespace WillowOS

namespace DescriptorTables

open BitField

/-! ### The encoders -/

/-- `create_descriptor`. -/
def createDescriptor (base limit : BitVec 32) (access flags : BitVec 8) : BitVec 64 :=
  if 0xFFFFF < limit then 0
  else
    (limit &&& 0xFFFF).setWidth 64
      -- shifted in 32 bits, of which it needs all
      ||| ((base &&& 0xFFFF) <<< 16).setWidth 64
      ||| ((base >>> 16) &&& 0xFF).setWidth 64 <<< 32
      ||| access.setWidth 64 <<< 40
      ||| ((limit >>> 16) &&& 0xF).setWidth 64 <<< 48
      ||| (flags &&& 0xF).setWidth 64 <<< 52
      ||| ((base >>> 24).setWidth 64 &&& 0xFF) <<< 56

/-- `setup_gdt`. -/
def setupGdt (gdtTable : ℕ → BitVec 64) : ℕ → BitVec 64
  | 0 => 0
  | 1 => createDescriptor 0 0xFFFFF 0x9a 0x0a
  | 2 => createDescriptor 0 0xFFFFF 0x92 0x0c
  | 3 => createDescriptor 0 0xFFFFF 0xf2 0x0c
  | 4 => createDescriptor 0 0xFFFFF 0xfa 0x0a
  | i => gdtTable i

/-- The two words `create_tss_descriptor` stores. The limit is computed with as an `int`. -/
def tssWords (base : BitVec 64) (limit : BitVec 16) : BitVec 64 × BitVec 64 :=
  let limit := limit.setWidth 32
  ((limit &&& 0xFFFF).setWidth 64
      ||| (base &&& 0xFFFFFF) <<< 16
      ||| (0x89 : BitVec 64) <<< 40
      ||| ((limit >>> 16) &&& 0xF).setWidth 64 <<< 48
      ||| ((base >>> 24) &&& 0xFF) <<< 56,
    (base >>> 32) &&& 0xFFFFFFFF)

/-- `create_tss_descriptor`. -/
def createTssDescriptor (base : BitVec 64) (limit : BitVec 16) (gdtTable : ℕ → BitVec 64)
    (index : ℕ) : ℕ → BitVec 64 :=
  Function.update (Function.update gdtTable index (tssWords base limit).1) (index + 1)
    (tssWords base limit).2

/-- An `idt_entry_t`. -/
structure IdtEntry where
  isrLow : BitVec 16
  kernelCs : BitVec 16
  ist : BitVec 8
  attributes : BitVec 8
  isrMid : BitVec 16
  isrHigh : BitVec 32
  reserved : BitVec 32
deriving DecidableEq

/-- `idt_set_descriptor`. -/
def idtSetDescriptor (idt : BitVec 8 → IdtEntry) (vector : BitVec 8) (isr : BitVec 64)
    (flags : BitVec 8) : BitVec 8 → IdtEntry :=
  Function.update idt vector
    { isrLow := (isr &&& 0xFFFF).setWidth 16
      kernelCs := 0x08
      ist := 0
      attributes := flags
      isrMid := ((isr >>> 16) &&& 0xFFFF).setWidth 16
      isrHigh := ((isr >>> 32) &&& 0xFFFFFFFF).setWidth 32
      reserved := 0 }

/-- The loop of `idt_init`; `vector` is a `uint64_t` there, and cut to a byte in the call. -/
def idtInit (idt : BitVec 8 → IdtEntry) (isrStubTable : ℕ → BitVec 64) : BitVec 8 → IdtEntry :=
  (List.range 256).foldl
    (fun idt vector => idtSetDescriptor idt (BitVec.ofNat 8 vector) (isrStubTable vector) 0x8E) idt

/-! ### What the processor reads -/

/-- What a descriptor of a code or data segment says. -/
structure Segment where
  base : BitVec 32
  limit : BitVec 20
  access : BitVec 8
  flags : BitVec 4
deriving DecidableEq

/-- The fields of a segment descriptor, of eight bytes. -/
def decodeSegment (d : BitVec 64) : Segment where
  base := d.extractLsb' 56 8 ++ d.extractLsb' 16 24
  limit := d.extractLsb' 48 4 ++ d.extractLsb' 0 16
  access := d.extractLsb' 40 8
  flags := d.extractLsb' 52 4

/-- What a descriptor of a task state segment says. -/
structure SystemSegment where
  base : BitVec 64
  limit : BitVec 20
  /-- The type, with the privilege level and the present bit. -/
  access : BitVec 8
  /-- The granularity, the bit for the use of the kernel, and two reserved bits. -/
  flags : BitVec 4
  reserved : BitVec 32
deriving DecidableEq

/-- The fields of a system descriptor, of sixteen bytes. -/
def decodeSystem (low high : BitVec 64) : SystemSegment where
  base := high.extractLsb' 0 32 ++ (low.extractLsb' 56 8 ++ low.extractLsb' 16 24)
  limit := low.extractLsb' 48 4 ++ low.extractLsb' 0 16
  access := low.extractLsb' 40 8
  flags := low.extractLsb' 52 4
  reserved := high.extractLsb' 32 32

/-- What a gate descriptor says. -/
structure Gate where
  offset : BitVec 64
  selector : BitVec 16
  ist : BitVec 8
  attributes : BitVec 8
  reserved : BitVec 32
deriving DecidableEq

/-- An entry as it lies in memory: the structure is packed, its first field lowest. -/
def IdtEntry.packed (e : IdtEntry) : BitVec 128 :=
  e.reserved ++ (e.isrHigh ++ (e.isrMid ++ (e.attributes ++ (e.ist ++ (e.kernelCs ++ e.isrLow)))))

/-- The fields of a gate descriptor, of sixteen bytes. -/
def decodeGate (d : BitVec 128) : Gate where
  offset := d.extractLsb' 64 32 ++ (d.extractLsb' 48 16 ++ d.extractLsb' 0 16)
  selector := d.extractLsb' 16 16
  ist := d.extractLsb' 32 8
  attributes := d.extractLsb' 40 8
  reserved := d.extractLsb' 96 32

/-! ### Segments -/

variable {base limit : BitVec 32} {access flags : BitVec 8}

/-- The fields `create_descriptor` places. -/
theorem createDescriptor_eq (hlimit : limit ≤ 0xFFFFF) :
    createDescriptor base limit access flags =
      place 64 0 (limit.extractLsb' 0 16) ||| place 64 16 (base.extractLsb' 0 16)
        ||| place 64 32 (base.extractLsb' 16 8) ||| place 64 40 access
        ||| place 64 48 (limit.extractLsb' 16 4) ||| place 64 52 (flags.extractLsb' 0 4)
        ||| place 64 56 (base.extractLsb' 24 8) := by
  have hlow : (limit &&& 0xFFFF).setWidth 64 = place 64 0 (limit.extractLsb' 0 16) := by
    rw [← place_and (c := 0xFFFF) rfl (by decide), BitVec.shiftLeft_zero]
  have hbase : ((base &&& 0xFFFF) <<< 16).setWidth 64 = place 64 16 (base.extractLsb' 0 16) := by
    rw [← setWidth_place (k := 32) (by decide), place, ← and_mask (c := 0xFFFF) rfl]
  have hhigh : ((base >>> 24).setWidth 64 &&& 0xFF) <<< 56 =
      place 64 56 (base.extractLsb' 24 8) := by
    rw [and_mask (c := 0xFF) (w := 8) rfl, BitVec.extractLsb'_setWidth_of_le (by decide),
      ← BitVec.setWidth_ushiftRight_eq_extractLsb, BitVec.ushiftRight_zero,
      BitVec.setWidth_ushiftRight_eq_extractLsb, place]
  rw [createDescriptor, if_neg (BitVec.not_lt.mpr hlimit), hlow, hbase, hhigh,
    place_ushiftRight_and (c := 0xFF) (w := 8) rfl (by decide),
    place_ushiftRight_and (c := 0xF) (w := 4) rfl (by decide),
    place_and (c := 0xF) (w := 4) rfl (by decide)]
  rfl

/-- The lowest 24 bits of a base lie side by side. -/
theorem extractLsb'_low (d : BitVec 64) :
    d.extractLsb' 32 8 ++ d.extractLsb' 16 16 = d.extractLsb' 16 24 :=
  BitVec.extractLsb'_append_extractLsb'_eq_extractLsb' rfl

/-- **What `create_descriptor` encodes is what the processor reads.** -/
theorem decodeSegment_createDescriptor (hlimit : limit ≤ 0xFFFFF) :
    decodeSegment (createDescriptor base limit access flags) =
      ⟨base, limit.setWidth 20, access, flags.setWidth 4⟩ := by
  have hbase : base.extractLsb' 24 8 ++ (base.extractLsb' 16 8 ++ base.extractLsb' 0 16) = base :=
    calc base.extractLsb' 24 8 ++ (base.extractLsb' 16 8 ++ base.extractLsb' 0 16)
      _ = base.extractLsb' 24 8 ++ base.extractLsb' 0 24 :=
        congrArg _ (BitVec.extractLsb'_append_extractLsb'_eq_extractLsb' rfl)
      _ = base.extractLsb' 0 32 := BitVec.extractLsb'_append_extractLsb'_eq_extractLsb' rfl
      _ = base := BitVec.extractLsb'_eq_self
  have hlim : limit.extractLsb' 16 4 ++ limit.extractLsb' 0 16 = limit.setWidth 20 :=
    (BitVec.extractLsb'_append_extractLsb'_eq_extractLsb' rfl).trans
      (BitVec.setWidth_eq_extractLsb' (by decide)).symm
  have hflags : flags.extractLsb' 0 4 = flags.setWidth 4 :=
    (BitVec.setWidth_eq_extractLsb' (by decide)).symm
  rw [createDescriptor_eq hlimit, decodeSegment, ← extractLsb'_low]
  simp (disch := decide) only [BitVec.extractLsb'_or, extractLsb'_place_self,
    extractLsb'_place_of_disjoint, BitVec.zero_or, BitVec.or_zero, hbase, hlim, hflags]

/-- The segments of `setup_gdt`, of the kernel and of programs: code of 64 bits and data, from
address `0` on, with the largest limit. -/
theorem setupGdt_decode (gdtTable : ℕ → BitVec 64) :
    [1, 2, 3, 4].map (fun i => decodeSegment (setupGdt gdtTable i)) =
      [⟨0, 0xFFFFF, 0x9a, 0xa⟩, ⟨0, 0xFFFFF, 0x92, 0xc⟩, ⟨0, 0xFFFFF, 0xf2, 0xc⟩,
        ⟨0, 0xFFFFF, 0xfa, 0xa⟩] := by
  have hlimit : (0xFFFFF : BitVec 32) ≤ 0xFFFFF := BitVec.le_refl _
  simp only [List.map_cons, List.map_nil, setupGdt, decodeSegment_createDescriptor hlimit]
  rfl

/-! ### The task state segment -/

section Tss

variable {base : BitVec 64} {limit : BitVec 16}

/-- The fields of the lower word. -/
theorem tssWords_fst : (tssWords base limit).1 =
    place 64 0 limit ||| place 64 16 (base.extractLsb' 0 24) ||| place 64 40 (0x89 : BitVec 8)
      ||| place 64 48 (0 : BitVec 4) ||| place 64 56 (base.extractLsb' 24 8) := by
  have hlimit : (limit.setWidth 32 &&& 0xFFFF).setWidth 64 = place 64 0 limit := by
    rw [and_mask (c := 0xFFFF) (w := 16) rfl, BitVec.extractLsb'_setWidth_of_le (by decide),
      BitVec.extractLsb'_eq_self, BitVec.setWidth_setWidth (by decide), place,
      BitVec.shiftLeft_zero]
  have hupper : (limit.setWidth 32).extractLsb' 16 4 = 0#4 := by
    refine BitVec.eq_of_getLsbD_eq fun i hi => ?_
    rw [BitVec.getLsbD_extractLsb', BitVec.getLsbD_setWidth,
      BitVec.getLsbD_of_ge limit _ (by omega)]
    simp
  have hbase : (base &&& 0xFFFFFF) <<< 16 = place 64 16 (base.extractLsb' 0 24) := by
    rw [and_mask (c := 0xFFFFFF) (w := 24) rfl, place]
  have hhigh : ((base >>> 24) &&& 0xFF) <<< 56 = place 64 56 (base.extractLsb' 24 8) := by
    rw [ushiftRight_and_mask (c := 0xFF) (w := 8) rfl, place]
  rw [tssWords, hlimit, hbase, hhigh, place_ushiftRight_and (c := 0xF) (w := 4) rfl (by decide),
    hupper]
  rfl

/-- The upper word is the upper half of the base. -/
theorem tssWords_snd : (tssWords base limit).2 = place 64 0 (base.extractLsb' 32 32) := by
  rw [tssWords, ushiftRight_and_mask (c := 0xFFFFFFFF) (w := 32) rfl, place, BitVec.shiftLeft_zero]

/-- **What `create_tss_descriptor` stores is what the processor reads**, with nothing in the
reserved bits. -/
theorem decodeSystem_tssWords : decodeSystem (tssWords base limit).1 (tssWords base limit).2 =
    ⟨base, limit.setWidth 20, 0x89, 0, 0⟩ := by
  have hbase : base.extractLsb' 32 32 ++ (base.extractLsb' 24 8 ++ base.extractLsb' 0 24) = base :=
    calc base.extractLsb' 32 32 ++ (base.extractLsb' 24 8 ++ base.extractLsb' 0 24)
      _ = base.extractLsb' 32 32 ++ base.extractLsb' 0 32 :=
        congrArg _ (BitVec.extractLsb'_append_extractLsb'_eq_extractLsb' rfl)
      _ = base.extractLsb' 0 64 := BitVec.extractLsb'_append_extractLsb'_eq_extractLsb' rfl
      _ = base := BitVec.extractLsb'_eq_self
  have hlimit : (0 : BitVec 4) ++ limit = limit.setWidth 20 := by
    refine BitVec.eq_of_getLsbD_eq fun i hi => ?_
    rw [BitVec.getLsbD_append, BitVec.getLsbD_setWidth]
    split_ifs with hlow
    · simp [hi]
    · rw [BitVec.getLsbD_of_ge limit i (by omega)]
      simp
  rw [tssWords_fst, tssWords_snd, decodeSystem]
  simp (disch := decide) only [BitVec.extractLsb'_or, extractLsb'_place_self,
    extractLsb'_place_of_disjoint, BitVec.zero_or, BitVec.or_zero, hbase, hlimit]
  rfl

end Tss

/-! ### Gates -/

/-- An entry is read as it lies in memory. -/
theorem decodeGate_packed (e : IdtEntry) : decodeGate e.packed =
    ⟨e.isrHigh ++ (e.isrMid ++ e.isrLow), e.kernelCs, e.ist, e.attributes, e.reserved⟩ := by
  rw [decodeGate, IdtEntry.packed]
  -- the widths of the parts are not added up before the fields have been found
  simp (disch := decide) only [BitVec.extractLsb'_append_eq_of_le,
    BitVec.extractLsb'_append_eq_of_add_le]
  simp only [Nat.reduceAdd, Nat.reduceSub, BitVec.extractLsb'_eq_self]

/-- An address is put together from its three parts. -/
theorem isr_append (isr : BitVec 64) : ((isr >>> 32) &&& 0xFFFFFFFF).setWidth 32 ++
    (((isr >>> 16) &&& 0xFFFF).setWidth 16 ++ (isr &&& 0xFFFF).setWidth 16) = isr := by
  rw [ushiftRight_and_mask (c := 0xFFFFFFFF) (w := 32) rfl,
    ushiftRight_and_mask (c := 0xFFFF) (w := 16) rfl, and_mask (c := 0xFFFF) (w := 16) rfl,
    BitVec.setWidth_setWidth (by decide), BitVec.setWidth_setWidth (by decide),
    BitVec.setWidth_setWidth (by decide), BitVec.setWidth_eq, BitVec.setWidth_eq,
    BitVec.setWidth_eq]
  calc isr.extractLsb' 32 32 ++ (isr.extractLsb' 16 16 ++ isr.extractLsb' 0 16)
    _ = isr.extractLsb' 32 32 ++ isr.extractLsb' 0 32 :=
      congrArg _ (BitVec.extractLsb'_append_extractLsb'_eq_extractLsb' rfl)
    _ = isr.extractLsb' 0 64 := BitVec.extractLsb'_append_extractLsb'_eq_extractLsb' rfl
    _ = isr := BitVec.extractLsb'_eq_self

/-- **What `idt_set_descriptor` stores is what the processor reads.** -/
theorem decodeGate_idtSetDescriptor (idt : BitVec 8 → IdtEntry) (vector : BitVec 8)
    (isr : BitVec 64) (flags : BitVec 8) :
    decodeGate (idtSetDescriptor idt vector isr flags vector).packed =
      ⟨isr, 0x08, 0, flags, 0⟩ := by
  rw [decodeGate_packed, idtSetDescriptor, Function.update_self, isr_append]

theorem idtSetDescriptor_of_ne {idt : BitVec 8 → IdtEntry} {vector v : BitVec 8} {isr : BitVec 64}
    (h : v ≠ vector) : idtSetDescriptor idt vector isr flags v = idt v :=
  Function.update_of_ne h _ _

/-- **`idt_init` makes a gate for every vector**, which leads to its handler. -/
theorem idtInit_decode (idt : BitVec 8 → IdtEntry) (isrStubTable : ℕ → BitVec 64)
    (vector : BitVec 8) : decodeGate (idtInit idt isrStubTable vector).packed =
      ⟨isrStubTable vector.toNat, 0x08, 0, 0x8E, 0⟩ := by
  -- after the first `n` turns, the gates below `n` are made
  have hturns : ∀ n ≤ 256, vector.toNat < n → decodeGate (((List.range n).foldl
      (fun idt v => idtSetDescriptor idt (BitVec.ofNat 8 v) (isrStubTable v) 0x8E) idt)
        vector).packed = ⟨isrStubTable vector.toNat, 0x08, 0, 0x8E, 0⟩ := by
    intro n hn hlt
    induction n with
    | zero => omega
    | succ n ih =>
      rw [List.range_succ, List.foldl_append, List.foldl_cons, List.foldl_nil]
      rcases Nat.eq_or_lt_of_le (Nat.le_of_lt_succ hlt) with heq | hlt
      · rw [← heq, BitVec.ofNat_toNat, BitVec.setWidth_eq, decodeGate_idtSetDescriptor]
      · rw [idtSetDescriptor_of_ne, ih (by omega) hlt]
        rintro rfl
        rw [BitVec.toNat_ofNat] at hlt
        omega
  exact hturns 256 le_rfl vector.isLt

/-! ### All descriptors -/

/-- **The encoders lose nothing.** What the processor reads in a descriptor that
`create_descriptor` has made is the base, the limit, the access byte and the flags; in the two
words of `create_tss_descriptor`, the base and the limit, with type `0x89` and no reserved bit set;
in an entry of `idt_set_descriptor`, the address of the handler, with selector `0x08`, no stack of
its own, and the flags. No other entry of a table is changed. -/
theorem descriptors_decode :
    (∀ (base limit : BitVec 32) (access flags : BitVec 8), limit ≤ 0xFFFFF → flags ≤ 0xF →
      let d := decodeSegment (createDescriptor base limit access flags)
      d.base = base ∧ d.limit.setWidth 32 = limit ∧ d.access = access ∧
        d.flags.setWidth 8 = flags) ∧
    (∀ (base : BitVec 64) (limit : BitVec 16) (gdtTable : ℕ → BitVec 64) (index : ℕ),
      let table := createTssDescriptor base limit gdtTable index
      decodeSystem (table index) (table (index + 1)) = ⟨base, limit.setWidth 20, 0x89, 0, 0⟩ ∧
        ∀ i, i ≠ index → i ≠ index + 1 → table i = gdtTable i) ∧
    ∀ (idt : BitVec 8 → IdtEntry) (vector : BitVec 8) (isr : BitVec 64) (flags : BitVec 8),
      let e := idtSetDescriptor idt vector isr flags vector
      e.isrHigh ++ (e.isrMid ++ e.isrLow) = isr ∧
        decodeGate e.packed = ⟨isr, e.kernelCs, e.ist, e.attributes, 0⟩ ∧
        e.kernelCs = 0x08 ∧ e.ist = 0 ∧ e.attributes = flags ∧
        ∀ v, v ≠ vector → idtSetDescriptor idt vector isr flags v = idt v := by
  refine ⟨fun base limit access flags hlimit hflags => ?_, fun base limit gdtTable index => ?_,
    fun idt vector isr flags => ?_⟩
  · have hlim : (limit.setWidth 20).setWidth 32 = limit :=
      setWidth_setWidth_of_le hlimit (by decide)
    have hfl : (flags.setWidth 4).setWidth 8 = flags :=
      setWidth_setWidth_of_le hflags (by decide)
    intro d
    have hd : d = _ := decodeSegment_createDescriptor hlimit
    rw [hd]
    exact ⟨rfl, hlim, rfl, hfl⟩
  · have hlow : createTssDescriptor base limit gdtTable index index = (tssWords base limit).1 := by
      rw [createTssDescriptor, Function.update_of_ne (by omega), Function.update_self]
    have hhigh : createTssDescriptor base limit gdtTable index (index + 1) =
        (tssWords base limit).2 := Function.update_self ..
    refine ⟨?_, fun i hi hi' => ?_⟩
    · rw [hlow, hhigh, decodeSystem_tssWords]
    · rw [createTssDescriptor, Function.update_of_ne hi', Function.update_of_ne hi]
  · have hentry := decodeGate_idtSetDescriptor idt vector isr flags
    rw [decodeGate_packed] at hentry
    obtain ⟨hisr, hcs, hist, hflags, hreserved⟩ := Gate.mk.inj hentry
    refine ⟨hisr, ?_, hcs, hist, hflags, fun v hv => idtSetDescriptor_of_ne hv⟩
    rw [decodeGate_packed, hisr, hreserved]

/-- The code segments of the kernel and of programs. -/
theorem descriptors_decode_kernel :
    (decodeSegment (createDescriptor 0 0xFFFFF 0x9a 0x0a)).limit.setWidth 32 = 0xFFFFF#32 ∧
      (decodeSegment (createDescriptor 0 0xFFFFF 0xfa 0x0a)).access = 0xfa := by
  obtain ⟨hsegment, -, -⟩ := descriptors_decode
  exact ⟨(hsegment 0 0xFFFFF 0x9a 0x0a (by decide) (by decide)).2.1,
    (hsegment 0 0xFFFFF 0xfa 0x0a (by decide) (by decide)).2.2.1⟩

end DescriptorTables

end WillowOS
