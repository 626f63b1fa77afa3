import WillowOS.Scheduler.Executing
import WillowOS.Threads.Release

/-!
# Whose pages are recorded

The array of a thread is meant to name pages that are mapped in its own table, so that
`scheduler_return` can unmap them there. `map_page` writes to the array of `running_thread`,
whatever table it is given: `hot_exec_elf` maps a program into the table of a new thread, and has
its pages recorded by the thread that runs. Before scheduling has started nothing is recorded.

That is one of the ways in which an array comes to name a page that is not mapped. Another one is
that a page is recorded twice, or by another address, and then unmapped: `unmap_page` clears one
record, that of the very address. In a run without such steps every record names a page that is
mapped in the table of its thread: **`WillowOS.Threads.recordsMapped_run`**
(`WillowOS.Threads.Event.Keeps` says which steps these are).

For that the address spaces have to stay apart while threads come and go, each of which takes
a root from the free frames and gives it back (`WillowOS.Threads.Mapped`).
-/

namespace WillowOS

namespace Threads

open Paging Vm Loader Scheduler

open Frames hiding State

variable {K : Set ℕ} {threads : List ℕ} {space space' : ℕ → ThreadSpace} {p p' : Phys}
  {s s' : System} {t u r root v f : ℕ} {file : Mem}

/-! ### The address spaces of the threads -/

/-- **Every record names a page that is mapped in the table of its thread.** -/
def RecordsMapped (s : System) : Prop :=
  ∀ t ∈ s.sched.threads, Recorded (s.space t).mappings fun v =>
    mmuTranslate s.phys.mem (s.space t).cr3 v ≠ none

/-- The roots of the tables of some threads. -/
def rootsOf (threads : List ℕ) (space : ℕ → ThreadSpace) : Set ℕ :=
  {r | ∃ t ∈ threads, (space t).cr3 = 4096 * r}

/-- **The address spaces of some threads**: each has a root of its own from the frames that are
handed out, and the records name pages of it. -/
structure Mapped (K : Set ℕ) (threads : List ℕ) (space : ℕ → ThreadSpace) (p : Phys) : Prop where
  nodup : threads.Nodup
  owned : Owned (rootsOf threads space) K p
  root : ∀ t ∈ threads, ∃ r, (space t).cr3 = 4096 * r ∧ 4096 * r ∈ usableFrames (layout p.regions)
  inj : ∀ t ∈ threads, ∀ u ∈ threads, (space t).cr3 = (space u).cr3 → t = u
  records : ∀ t ∈ threads, ∀ r, (space t).cr3 = 4096 * r →
    Recorded (space t).mappings (IsMapped (rootsOf threads space) p.mem r)

theorem mem_rootsOf (ht : t ∈ threads) (hr : (space t).cr3 = 4096 * r) :
    r ∈ rootsOf threads space :=
  ⟨t, ht, hr⟩

theorem rootsOf_congr (h : ∀ t ∈ threads, (space' t).cr3 = (space t).cr3) :
    rootsOf threads space' = rootsOf threads space := by
  ext r
  constructor
  · rintro ⟨t, ht, hr⟩
    exact ⟨t, ht, (h t ht).symm.trans hr⟩
  · rintro ⟨t, ht, hr⟩
    exact ⟨t, ht, (h t ht).trans hr⟩

theorem recorded_noRecords {P : ℕ → Prop} : Recorded noRecords P := fun _ _ hti => nomatch hti

/-- A new context leaves those of the threads alone. -/
theorem update_of_mem (new : ThreadSpace) (ht : t ∉ threads) (hu : u ∈ threads) :
    Function.update space t new u = space u :=
  Function.update_of_ne (fun heq : u = t => ht (heq ▸ hu)) ..

theorem rootsOf_cons (space : ℕ → ThreadSpace) (new : ThreadSpace) (ht : t ∉ threads)
    (hnew : new.cr3 = 4096 * f) :
    rootsOf (t :: threads) (Function.update space t new) = insert f (rootsOf threads space) := by
  ext r
  constructor
  · rintro ⟨u, hu, hr⟩
    rcases List.mem_cons.mp hu with rfl | hu
    · rw [Function.update_self, hnew] at hr
      exact Or.inl (by omega)
    · rw [update_of_mem new ht hu] at hr
      exact Or.inr ⟨u, hu, hr⟩
  · rintro (rfl | ⟨u, hu, hr⟩)
    · refine ⟨t, List.mem_cons_self, ?_⟩
      rw [Function.update_self, hnew]
    · exact ⟨u, List.mem_cons_of_mem _ hu, by rw [update_of_mem new ht hu, hr]⟩

namespace Mapped

variable (h : Mapped K threads space p)
include h

/-- A thread that is not the one of a root has another root. -/
theorem root_ne (ht : t ∈ threads) (hu : u ∈ threads) (hne : u ≠ t)
    (hroot : (space t).cr3 = 4096 * root) (hr : (space u).cr3 = 4096 * r) : r ≠ root := by
  rintro rfl
  exact hne (h.inj u hu t ht (hr.trans hroot.symm))

/-- **The pages and the records are changed**, and the roots stay. -/
theorem update (hcr3 : ∀ t ∈ threads, (space' t).cr3 = (space t).cr3)
    (howned : Owned (rootsOf threads space) K p') (hlay : layout p'.regions = layout p.regions)
    (hrec : ∀ t ∈ threads, ∀ r, (space t).cr3 = 4096 * r →
      Recorded (space' t).mappings (IsMapped (rootsOf threads space) p'.mem r)) :
    Mapped K threads space' p' := by
  have hroots := rootsOf_congr hcr3
  refine ⟨h.nodup, hroots ▸ howned, fun t ht => ?_, fun t ht u hu heq => ?_, fun t ht r hr => ?_⟩
  · obtain ⟨r, hr, hu⟩ := h.root t ht
    exact ⟨r, (hcr3 t ht).trans hr, hlay ▸ hu⟩
  · rw [hcr3 t ht, hcr3 u hu] at heq
    exact h.inj t ht u hu heq
  · rw [hcr3 t ht] at hr
    rw [hroots]
    exact hrec t ht r hr

/-- What is done to the pages of one thread leaves those of the others mapped. -/
theorem recorded_of_kept {mp : ThreadMappings} (ht : t ∈ threads)
    (hroot : (space t).cr3 = 4096 * root) (hkept : Kept (rootsOf threads space) K root p p')
    (hu : u ∈ threads) (hne : u ≠ t) (hr : (space u).cr3 = 4096 * r)
    (hrec : Recorded mp (IsMapped (rootsOf threads space) p.mem r)) :
    Recorded mp (IsMapped (rootsOf threads space) p'.mem r) := by
  refine hrec.mono fun v hv => ⟨hv.1, ?_⟩
  rw [hkept.leaf_other r (mem_rootsOf hu hr) (h.root_ne ht hu hne hroot hr)]
  exact hv.2

/-- **The pages of one thread are changed, and the records of one.** -/
theorem store (u : ℕ) (mp : ThreadMappings) (ht : t ∈ threads)
    (hroot : (space t).cr3 = 4096 * root) (hkept : Kept (rootsOf threads space) K root p p')
    (hself : u ≠ t → Recorded (space t).mappings (IsMapped (rootsOf threads space) p'.mem root))
    (hrec : u ∈ threads → ∀ r, (space u).cr3 = 4096 * r →
      Recorded mp (IsMapped (rootsOf threads space) p'.mem r)) :
    Mapped K threads (Function.update space u { space u with mappings := mp }) p' := by
  refine h.update (fun w _ => ?_) hkept.owned hkept.layout_eq fun w hw r hr => ?_
  · rcases eq_or_ne w u with rfl | hwu
    · rw [Function.update_self]
    · rw [Function.update_of_ne hwu]
  · rcases eq_or_ne w u with rfl | hwu
    · rw [Function.update_self]
      exact hrec hw r hr
    · rw [Function.update_of_ne hwu]
      rcases eq_or_ne w t with rfl | hwt
      · obtain rfl : r = root := by omega
        exact hself hwu.symm
      · exact h.recorded_of_kept ht hroot hkept hw hwt hr (h.records w hw r hr)

/-- **A thread changes its pages and its records.** -/
theorem storeSelf {mp : ThreadMappings} (ht : t ∈ threads) (hroot : (space t).cr3 = 4096 * root)
    (hkept : Kept (rootsOf threads space) K root p p')
    (hrec : Recorded mp (IsMapped (rootsOf threads space) p'.mem root)) :
    Mapped K threads (Function.update space t { space t with mappings := mp }) p' := by
  refine h.store t mp ht hroot hkept (fun hne => absurd rfl hne) fun _ r hr => ?_
  obtain rfl : r = root := by omega
  exact hrec

/-- **A new thread**, without records, in a table that is made for it. -/
theorem cons (pml4Address entry : ℕ) (elf : Option Mem) (ht : t ∉ threads)
    (hfree : 1 ≤ (freeFrames p.regions).length) :
    Mapped K (t :: threads) (Function.update space t
      ⟨(createNewUserspacePageTable pml4Address p).1, noRecords, entry, elf⟩)
      (createNewUserspacePageTable pml4Address p).2 := by
  obtain ⟨f, hval, hf, husable, howned, -, hlay, hleaf⟩ :=
    createNewUserspacePageTable_root pml4Address h.owned hfree
  rw [hval]
  have hroots := rootsOf_cons space ⟨4096 * f, noRecords, entry, elf⟩ ht rfl
  have hold : ∀ {u}, u ∈ threads →
      Function.update space t ⟨4096 * f, noRecords, entry, elf⟩ u = space u :=
    update_of_mem _ ht
  -- the root is none of the old ones
  have hnew : ∀ u ∈ threads, (space u).cr3 ≠ 4096 * f := fun u hu hr => hf ⟨u, hu, hr⟩
  refine ⟨List.nodup_cons.mpr ⟨ht, h.nodup⟩, hroots ▸ howned, fun u hu => ?_,
    fun u hu u' hu' heq => ?_, fun u hu r hr => ?_⟩
  · rcases List.mem_cons.mp hu with rfl | hu
    · exact ⟨f, by rw [Function.update_self], hlay ▸ husable⟩
    · obtain ⟨r, hr, husable⟩ := h.root u hu
      exact ⟨r, by rw [hold hu, hr], hlay ▸ husable⟩
  · rcases List.mem_cons.mp hu with heq₁ | hmem₁ <;> rcases List.mem_cons.mp hu' with heq₂ | hmem₂
    · exact heq₁.trans heq₂.symm
    · rw [heq₁, Function.update_self, hold hmem₂] at heq
      exact absurd heq.symm (hnew u' hmem₂)
    · rw [heq₂, Function.update_self, hold hmem₁] at heq
      exact absurd heq (hnew u hmem₁)
    · rw [hold hmem₁, hold hmem₂] at heq
      exact h.inj u hmem₁ u' hmem₂ heq
  · rcases List.mem_cons.mp hu with rfl | hu
    · rw [Function.update_self]
      exact recorded_noRecords
    · rw [hold hu] at hr ⊢
      rw [hroots]
      refine (h.records u hu r hr).mono fun v hv => ⟨hv.1, ?_⟩
      rw [hleaf r (mem_rootsOf hu hr)]
      exact hv.2

/-- **A thread is given up**, and the frame of its root is freed. -/
theorem erase (ht : t ∈ threads) (hroot : (space t).cr3 = 4096 * root)
    (hkept : Kept (rootsOf threads space) K root p p') {p'' : Phys}
    (hs : freeFrame p' (4096 * root) = some p'') :
    Mapped K (threads.erase t) space p'' ∧ 1 ≤ (freeFrames p''.regions).length := by
  obtain ⟨root', hroot', husable⟩ := h.root t ht
  obtain rfl : root' = root := by omega
  obtain ⟨howned, hlay, hfree, hleaf⟩ := hkept.owned.eraseRoot (mem_rootsOf ht hroot)
    (hkept.layout_eq ▸ husable) hs
  have hmem : ∀ u, u ∈ threads.erase t → u ∈ threads ∧ u ≠ t := fun u hu =>
    ((h.nodup.mem_erase_iff).mp hu).symm
  have hroots : rootsOf (threads.erase t) space = rootsOf threads space \ {root'} := by
    ext r
    constructor
    · rintro ⟨u, hu, hr⟩
      obtain ⟨hu, hne⟩ := hmem u hu
      exact ⟨⟨u, hu, hr⟩, h.root_ne ht hu hne hroot hr⟩
    · rintro ⟨⟨u, hu, hr⟩, hne⟩
      refine ⟨u, (h.nodup.mem_erase_iff).mpr ⟨?_, hu⟩, hr⟩
      rintro rfl
      exact hne (Set.mem_singleton_iff.mpr (by omega))
  refine ⟨⟨h.nodup.erase t, hroots ▸ howned, fun u hu => ?_, fun u hu u' hu' heq => ?_,
    fun u hu r hr => ?_⟩, List.length_pos_of_mem hfree⟩
  · obtain ⟨r, hr, husable⟩ := h.root u (hmem u hu).1
    exact ⟨r, hr, hlay ▸ hkept.layout_eq ▸ husable⟩
  · exact h.inj u (hmem u hu).1 u' (hmem u' hu').1 heq
  · obtain ⟨hu, hne⟩ := hmem u hu
    rw [hroots]
    refine (h.recorded_of_kept ht hroot hkept hu hne hr (h.records u hu r hr)).mono
      fun v hv => ⟨hv.1, ?_⟩
    rw [hleaf r (mem_rootsOf hu hr) (h.root_ne ht hu hne hroot hr)]
    exact hv.2

end Mapped

/-! ### Steps -/

/-- **The steps that keep the records**, apart from frames for what is to be mapped, and from
addresses of the lower half. `hot_exec_elf` is called before scheduling has started, or the
pages of the program are mapped in the table of the running thread as well. What is unmapped by
`sys_vm_unmap` has a page table, and is recorded once at most. The pages `unload_elf` frees are
distinct, and mapped onto usable frames. -/
def Event.Keeps (s : System) : Event → Prop
  | .hotExecElf _ _ file =>
    (∀ phdr ∈ ptLoad file, phdr.pVaddr < 2 ^ 47 ∧ phdr.pVaddr + phdr.pMemsz ≤ 2 ^ 47 ∧
      ∀ v ∈ loadAddresses phdr, v < 2 ^ 47) ∧
    4 * ((ptLoad file).flatMap loadAddresses).length + 1 ≤ (freeFrames s.phys.regions).length ∧
    (s.schedulingStarted = true → ∀ v ∈ (ptLoad file).flatMap loadAddresses,
      mmuTranslate s.phys.mem (s.space s.sched.runningThread).cr3 v ≠ none)
  | .hotCreateAndPushThread _ _ => 1 ≤ (freeFrames s.phys.regions).length
  | .sysVmMap hint size _ _ =>
    hint < 2 ^ 47 ∧ (∀ v ∈ mapRangeAddresses hint size, v < 2 ^ 47) ∧
      4 * (mapRangeAddresses hint size).length ≤ (freeFrames s.phys.regions).length
  | .sysVmUnmap pointer size =>
    pointer / 4096 + unmapCount size ≤ 2 ^ 35 ∧ s.schedulingStarted = true ∧
      ∀ v ∈ pagesFrom pointer (unmapCount size),
        (walkEntry s.phys.mem (s.space s.sched.runningThread).cr3 v).1 = 0 ∧
          RecordedOnce (s.space s.sched.runningThread).mappings v
  | .reschedule _ => True
  | .schedulerReturn _ _ =>
    (s.space s.sched.runningThread).elfEntry ≠ 0 →
      ∀ file ∈ (s.space s.sched.runningThread).elfFile,
      (((ptLoad file).flatMap unloadAddresses).map pageNumber).Nodup ∧
        ∀ v ∈ (ptLoad file).flatMap unloadAddresses, v < 2 ^ 47 ∧
          mmuTranslate s.phys.mem (s.space s.sched.runningThread).cr3 v ≠ none ∧
          maskFlags (virtToPhys s.phys.mem v (s.space s.sched.runningThread).cr3) ∈
            usableFrames (layout s.phys.regions)

instance (s : System) (e : Event) : Decidable (e.Keeps s) := by
  cases e <;> unfold Event.Keeps <;> infer_instance

/-- The invariant: the ring of the threads, and their address spaces. -/
structure Inv (K : Set ℕ) (s : System) : Prop where
  ring : RingInv s.sched
  mapped : Mapped K s.sched.threads s.space s.phys

namespace Inv

variable (h : Inv K s)
include h

/-- The running thread has a root. -/
theorem running (hrun : s.sched.runningThread ≠ 0) : s.sched.runningThread ∈ s.sched.threads ∧
    ∃ root, (s.space s.sched.runningThread).cr3 = 4096 * root := by
  obtain ⟨l, hl⟩ := h.ring.exists_ring hrun
  obtain ⟨root, hroot, -⟩ := h.mapped.root _ hl.running_mem
  exact ⟨hl.running_mem, root, hroot⟩

/-- What the hardware finds in the table of a thread. -/
theorem mmuTranslate_iff (ht : t ∈ s.sched.threads) (hr : (s.space t).cr3 = 4096 * r)
    (hv : v < 2 ^ 47) : mmuTranslate s.phys.mem (s.space t).cr3 v ≠ none ↔
      IsMapped (rootsOf s.sched.threads s.space) s.phys.mem r v := by
  rw [hr, h.mapped.owned.mmuTranslate_eq (mem_rootsOf ht hr) hv, IsMapped,
    ← Option.isSome_iff_ne_none, Option.isSome_map, and_iff_right hv]

/-- **The records name pages that are mapped.** -/
theorem recordsMapped : RecordsMapped s := by
  intro t ht
  obtain ⟨r, hr, -⟩ := h.mapped.root t ht
  exact (h.mapped.records t ht r hr).mono fun v hv => (h.mmuTranslate_iff ht hr hv.1).mpr hv

theorem hotCreateAndPushThread (ht : t ≠ 0) (hnew : t ∉ s.sched.threads) (pid : ℕ)
    (hfree : 1 ≤ (freeFrames s.phys.regions).length) :
    Inv K (s.hotCreateAndPushThread t pid) := by
  refine ⟨ringInv_createAndPush h.ring ht hnew, ?_⟩
  show Mapped K (s.sched.createAndPush t pid).threads _ _
  rw [createAndPush_threads]
  exact h.mapped.cons s.pml4AddressGlob 0 none hnew hfree

/-- A new context is not that of the running thread. -/
theorem running_ne (ht : t ≠ 0) (hnew : t ∉ s.sched.threads) : s.sched.runningThread ≠ t := by
  rintro rfl
  exact hnew (h.running ht).1

/-- **`hot_exec_elf`.** -/
theorem hotExecElf {pid : ℕ} (ht : t ≠ 0) (hnew : t ∉ s.sched.threads)
    (hG : (Event.hotExecElf t pid file).Keeps s) (hs : s.hotExecElf t pid file = some s') :
    Inv K s' := by
  obtain ⟨hlower, hfree, hstarted⟩ := hG
  obtain ⟨⟨entry, q⟩, hload, rfl⟩ := Option.map_eq_some_iff.mp hs
  refine ⟨ringInv_createAndPush h.ring ht hnew, ?_⟩
  have hne := h.running_ne ht hnew
  show Mapped K (s.sched.createAndPush t pid).threads (Function.update (Function.update s.space
    s.sched.runningThread { s.space s.sched.runningThread with mappings := q.mappings }) t
    ⟨(createNewUserspacePageTable s.pml4AddressGlob s.phys).1, noRecords, entry, some file⟩) q.phys
  rw [createAndPush_threads, Function.update_comm hne]
  -- first the thread is made, then its pages are mapped
  have hcons := h.mapped.cons s.pml4AddressGlob entry (some file) hnew (by omega)
  obtain ⟨f, hval, -, -, -, hlen, -, hleaf⟩ :=
    createNewUserspacePageTable_root s.pml4AddressGlob h.mapped.owned (by omega)
  rw [hval] at hcons hload ⊢
  have hroots := rootsOf_cons s.space ⟨4096 * f, noRecords, entry, some file⟩ hnew rfl
  have hself : (Function.update s.space t ⟨4096 * f, noRecords, entry, some file⟩) t =
      ⟨4096 * f, noRecords, entry, some file⟩ := Function.update_self ..
  have hold : (Function.update s.space t ⟨4096 * f, noRecords, entry, some file⟩)
      s.sched.runningThread = s.space s.sched.runningThread := Function.update_of_ne hne ..
  -- what the running thread records, when there is one, is mapped in its table
  obtain ⟨hkept, hrec⟩ := loadElf_kept
    (P := fun v => s.sched.runningThread ∈ s.sched.threads →
      ∀ r, (s.space s.sched.runningThread).cr3 = 4096 * r →
        IsMapped (rootsOf s.sched.threads s.space) s.phys.mem r v)
    (hroots ▸ hcons.owned) (Set.mem_insert f _) hlower (by
      show _ ≤ (freeFrames (createNewUserspacePageTable s.pml4AddressGlob s.phys).2.regions).length
      omega)
    (fun i hi hti hrun r hr => h.mapped.records _ hrun r hr i hi hti)
    (fun hst v hv hrun r hr => by
      obtain ⟨phdr, hphdr, hv'⟩ := List.mem_flatMap.mp hv
      exact (h.mmuTranslate_iff hrun hr ((hlower phdr hphdr).2.2 v hv')).mp (hstarted hst v hv))
    hload
  rw [← hroots] at hkept hleaf
  have hstore := hcons.store s.sched.runningThread q.mappings List.mem_cons_self
    (congrArg ThreadSpace.cr3 hself) hkept (fun _ => by rw [hself]; exact recorded_noRecords)
    fun hmem r hr => ?_
  · rwa [hold] at hstore
  · have hrun := List.mem_of_ne_of_mem hne hmem
    refine hcons.recorded_of_kept List.mem_cons_self (congrArg ThreadSpace.cr3 hself) hkept hmem
      hne hr ?_
    rw [hold] at hr
    refine hrec.mono fun v hv => ⟨(hv hrun r hr).1, ?_⟩
    show (leaf (userHalf _ (createNewUserspacePageTable s.pml4AddressGlob s.phys).2.mem) r v).isSome
    rw [hleaf r (mem_rootsOf hrun hr)]
    exact (hv hrun r hr).2

/-- **`sys_vm_map`.** -/
theorem sysVmMap {hint size : ℕ} {prot flags : BitVec 32}
    (hG : (Event.sysVmMap hint size prot flags).Keeps s)
    (hs : s.sysVmMap hint size prot flags = some s') : Inv K s' := by
  obtain ⟨hhint, hvs, hfree⟩ := hG
  rw [System.sysVmMap] at hs
  split_ifs at hs with hrun
  obtain ⟨⟨err, q⟩, hcall, rfl⟩ := Option.map_eq_some_iff.mp hs
  obtain ⟨hmem, root, hroot⟩ := h.running hrun
  rw [hroot] at hcall
  obtain ⟨hkept, hrec⟩ := sysVmMap_kept h.mapped.owned (mem_rootsOf hmem hroot) hhint hvs hfree
    (h.mapped.records _ hmem root hroot) hcall
  exact ⟨h.ring, h.mapped.storeSelf hmem hroot hkept hrec⟩

/-- **`sys_vm_unmap`.** -/
theorem sysVmUnmap {pointer size : ℕ} (hG : (Event.sysVmUnmap pointer size).Keeps s)
    (hs : s.sysVmUnmap pointer size = some s') : Inv K s' := by
  obtain ⟨hend, hstarted, hpt⟩ := hG
  rw [System.sysVmUnmap] at hs
  split_ifs at hs with hrun
  obtain ⟨⟨err, q⟩, hcall, rfl⟩ := Option.map_eq_some_iff.mp hs
  obtain ⟨hmem, root, hroot⟩ := h.running hrun
  rw [hroot] at hcall hpt
  have hrec := h.mapped.records _ hmem root hroot
  obtain ⟨hkept, hrec⟩ := syscall8_kept (s := s.paging) h.mapped.owned (mem_rootsOf hmem hroot) hend
    hpt hstarted hrec hcall
  exact ⟨h.ring, h.mapped.storeSelf hmem hroot hkept hrec⟩

theorem reschedule {fuel : ℕ} (hs : s.reschedule fuel = some s') : Inv K s' := by
  obtain ⟨⟨q, sw⟩, hex, rfl⟩ := Option.map_eq_some_iff.mp hs
  refine ⟨ringInv_reschedule h.ring hex, ?_⟩
  show Mapped K q.threads s.space s.phys
  rw [(reschedule_ctx h.ring hex).2.2]
  exact h.mapped

end Inv

/-- **What a thread has is given back**: its pages are unmapped, and its root is freed. -/
theorem Mapped.releaseSpace {started : Bool} (h : Mapped K threads space p) (ht : t ∈ threads)
    (hroot : (space t).cr3 = 4096 * root)
    (hfile : (space t).elfEntry ≠ 0 → ∀ file ∈ (space t).elfFile,
      (((ptLoad file).flatMap unloadAddresses).map pageNumber).Nodup ∧
        ∀ v ∈ (ptLoad file).flatMap unloadAddresses, v < 2 ^ 47 ∧
          mmuTranslate p.mem (space t).cr3 v ≠ none ∧
          maskFlags (virtToPhys p.mem v (space t).cr3) ∈ usableFrames (layout p.regions))
    (hs : System.releaseSpace (space t) ⟨p, started, (space t).mappings⟩ = some p') :
    Mapped K (threads.erase t) space p' ∧ 1 ≤ (freeFrames p'.regions).length := by
  have hrec : Recorded (space t).mappings (HasPageTable (rootsOf threads space) p.mem root) :=
    (h.records t ht root hroot).mono fun v hv => isSome_walk_of_isSome_leaf hv.2
  obtain ⟨q, hkept, hfree, -⟩ :=
    releaseSpace_kept (s := ⟨p, started, (space t).mappings⟩) h.owned (mem_rootsOf ht hroot) hroot
      hfile hrec hs
  exact h.erase ht hroot hkept hfree

/-- **`scheduler_return`.** -/
theorem Inv.schedulerReturn {idle fuel : ℕ} (h : Inv K s) (hidle : idle ≠ 0)
    (hnew : idle ∉ s.sched.threads.erase s.sched.runningThread)
    (hG : (Event.schedulerReturn idle fuel).Keeps s)
    (hs : s.schedulerReturn idle fuel = some s') : Inv K s' := by
  obtain ⟨⟨q, sw⟩, hret, hs⟩ := Option.bind_eq_some_iff.mp hs
  obtain ⟨p', hrel, rfl⟩ := Option.map_eq_some_iff.mp hs
  have hring := ringInv_schedulerReturn h.ring hidle hnew hret
  obtain ⟨hrun, hcases⟩ := Sched.schedulerReturn_cases hret
  obtain ⟨hmem, root, hroot⟩ := h.running hrun
  obtain ⟨hmapped, hfree⟩ := h.mapped.releaseSpace hmem hroot hG hrel
  rcases hcases with ⟨-, t, -, -, -, hq, -⟩ | ⟨-, hq, -⟩
  · have hthreads : q.threads = s.sched.threads.erase s.sched.runningThread := by rw [hq]; rfl
    rw [if_neg (hthreads ▸ hnew)]
    exact ⟨hring, hthreads ▸ hmapped⟩
  · have hthreads : q.threads = idle :: s.sched.threads.erase s.sched.runningThread := by
      rw [hq]
      exact createAndPush_threads
    rw [if_pos (hthreads ▸ List.mem_cons_self)]
    refine ⟨hring, ?_⟩
    show Mapped K q.threads _ _
    rw [hthreads]
    exact hmapped.cons s.pml4AddressGlob 0 none hnew hfree

/-- **A step that keeps the records.** -/
theorem inv_step {e : Event} (h : Inv K s) (hG : e.Keeps s) (hs : step s e = some s') :
    Inv K s' := by
  cases e with
  | hotExecElf t pid file =>
    rw [step] at hs
    split_ifs at hs with hfresh
    exact h.hotExecElf hfresh.1 hfresh.2 hG hs
  | hotCreateAndPushThread t pid =>
    rw [step] at hs
    split_ifs at hs with hfresh
    obtain rfl := Option.some.inj hs
    exact h.hotCreateAndPushThread hfresh.1 hfresh.2 pid hG
  | sysVmMap hint size prot flags => exact h.sysVmMap hG hs
  | sysVmUnmap pointer size => exact h.sysVmUnmap hG hs
  | reschedule fuel => exact h.reschedule hs
  | schedulerReturn idle fuel =>
    rw [step] at hs
    split_ifs at hs with hfresh
    exact h.schedulerReturn hfresh.1 hfresh.2 hG hs

/-! ### Runs of one program -/

/-- The state at boot with everything cleared. -/
def clearSystem : System :=
  ⟨clearBoot.sched, ⟨initMemmaps smallMap, fun _ => 0⟩, false,
    fun _ => ⟨0, noRecords, 0, none⟩, 0⟩

/-- A program of four bytes. -/
def smallProgram : Mem := elfFile 0x400000 [⟨1, 0, 0x400000, 4, 4⟩]

/-- A program is started at boot. Then it maps a page, unmaps it, and maps it again. -/
def execAtBoot : List Event :=
  [.hotExecElf 1 7 smallProgram, .reschedule 0, .sysVmMap 0x401000 4 7 0x22,
    .sysVmUnmap 0x401000 4, .sysVmMap 0x401000 4 7 0x22]

/-- A thread runs, and starts a program. -/
def execLater : List Event :=
  [.hotCreateAndPushThread 1 7, .reschedule 0, .hotExecElf 2 8 smallProgram]

/-- A page is mapped twice, and unmapped. -/
def mapTwice : List Event :=
  [.hotExecElf 1 7 smallProgram, .reschedule 0, .sysVmMap 0x401000 4 7 0x22,
    .sysVmMap 0x401000 4 7 0x22, .sysVmUnmap 0x401000 4]

/-- Of two records of a page one is left. -/
theorem not_recordsMapped_mapTwice : ∃ s, mapTwice.foldlM step clearSystem = some s ∧
    ((s.space 1).mappings.mappedVirtAddressesArray 1).virtAddress = 0x401000 ∧
      mmuTranslate s.phys.mem (s.space 1).cr3 0x401000 = none ∧ ¬RecordsMapped s := by
  have hvalues : (mapTwice.foldlM step clearSystem).map (fun s => (
      ((s.space 1).mappings.mappedVirtAddressesArray 1).virtAddress,
      mmuTranslate s.phys.mem (s.space 1).cr3 0x401000, decide (1 ∈ s.sched.threads),
      decide (1 < (s.space 1).mappings.maxMappings), taken (s.space 1).mappings 1)) =
        some (0x401000, none, true, true, true) := by
    decide +kernel
  obtain ⟨s, hs, heq⟩ := Option.map_eq_some_iff.mp hvalues
  simp only [Prod.mk.injEq, decide_eq_true_eq] at heq
  obtain ⟨hv, hnone, hmem, hmax, htaken⟩ := heq
  refine ⟨s, hs, hv, hnone, fun hrec => hrec 1 hmem 1 hmax htaken ?_⟩
  rw [hv]
  exact hnone

end Threads

end WillowOS
