import Nachos.MipsRefinement

/-! A page fault in the middle of an instruction: the kernel brings the page and the instruction
starts again. By then the load before it has arrived, earlier than on a processor without faults;
a program that waits for its loads cannot tell. -/
namespace Nachos.Mips

/-! Two memories, the second of which never moves a page, and keeps the words that are written to
it. It has no byte where it gives a page fault, so that what follows is open. -/

structure Simulates {μ ν : Type} (bus : Bus μ) (flat : Bus ν) (V : μ → ν → Prop) : Prop where
  read : ∀ {m m' n a k w}, V m n → bus.readMem m a k = .ok (w, m') →
    V m' n ∧ (flat.readMem n a k = .error .pageFault ∨ flat.readMem n a k = .ok (w, n))
  write : ∀ {m m' n a k w}, V m n → bus.writeMem m a k w = .ok m' →
    flat.writeMem n a k w = .error .pageFault ∨
      ∃ n', flat.writeMem n a k w = .ok n' ∧ V m' n'
  keeps : ∀ {n n' a v w}, flat.writeMem n a 4 v = .ok n' → flat.writeMem n a 4 w = .ok n' → v = w
  readTrap : ∀ {m a k}, bus.readMem m a k ≠ .error .syscall
  writeTrap : ∀ {m a k w}, bus.writeMem m a k w ≠ .error .syscall

/-- An access to the address does not get through. -/
def Faults {μ : Type} (bus : Bus μ) (m : μ) (address : Word) : Prop :=
  (∃ size, bus.readMem m address size = .error .pageFault) ∨
    ∃ size value, bus.writeMem m address size value = .error .pageFault

/-! The registers that an instruction reads or writes, the target of a load apart. -/

def Instruction.touched (i : Instruction) : List ℕ :=
  match i.opCode with
  | .add | .addu | .sub | .subu | .and | .or | .xor | .nor | .slt | .sltu | .sllv | .srlv | .srav =>
    [i.rs, i.rt, i.rd]
  | .addi | .addiu | .slti | .sltiu | .andi | .ori | .xori | .beq | .bne | .sb | .sh | .sw | .swl
  | .swr | .mult | .multu | .div | .divu => [i.rs, i.rt]
  | .bgez | .bgtz | .blez | .bltz | .jr | .mthi | .mtlo | .lb | .lbu | .lh | .lhu | .lw | .lwl
  | .lwr => [i.rs]
  | .bgezal | .bltzal => [i.rs, r31]
  | .sll | .srl | .sra => [i.rt, i.rd]
  | .jalr => [i.rs, i.rd]
  | .mfhi | .mflo => [i.rd]
  | .lui => [i.rt]
  | .jal => [r31]
  | .j | .syscall | .res | .unimp | .rfe | .special | .bcond => []

/-- The instruction after a load leaves its target alone. An unaligned load may follow another one
to the same register, unless that is register 0. -/
structure HazardFree (c : Cpu) (i : Instruction) : Prop where
  waits : ∀ k ∈ i.touched, k = c.pending.1 → k = 0
  target : i.opCode = .lwl ∨ i.opCode = .lwr → i.rt ≠ 0

/-- The same registers once the pending load has arrived, which the first may have had early. -/
structure Alike (c c' : Cpu) : Prop where
  arrived : ∀ k < 32, c.arrive.reg k = c'.arrive.reg k
  pending : c.pending = c'.pending ∨ c.pending = (0, 0)
  hi : c.hi = c'.hi
  lo : c.lo = c'.lo
  pc : c.pc = c'.pc
  nextPC : c.nextPC = c'.nextPC
  prevPC : c.prevPC = c'.prevPC

variable {μ ν : Type} {bus : Bus μ} {flat : Bus ν} {V : μ → ν → Prop} {c c' u u' : Cpu} {m m' : μ}
  {n n' : ν} {i : Instruction} {k : ℕ} {w : Word}

theorem Alike.refl (c : Cpu) : Alike c c := ⟨fun _ _ => rfl, .inl rfl, rfl, rfl, rfl, rfl, rfl⟩

theorem Cpu.reg_arrive (c : Cpu) (hk : k < 32) :
    c.arrive.reg k = if k = c.pending.1 ∧ k ≠ 0 then c.pending.2 else c.reg k :=
  Cpu.reg_write c c.pending.2 c.pending.1.isLt hk

namespace Alike

/-- A register that no load goes to. -/
theorem reg (h : Alike c c') (hk : k < 32) (hwait : k = c'.pending.1 → k = 0) :
    c.reg k = c'.reg k := by
  have hlate : ¬ (k = c'.pending.1 ∧ k ≠ 0) := fun hp => hp.2 (hwait hp.1)
  have harrived := h.arrived k hk
  rw [c.reg_arrive hk, c'.reg_arrive hk, if_neg hlate] at harrived
  rcases h.pending with he | he
  · rwa [he, if_neg hlate] at harrived
  · rwa [he, if_neg fun hp => hp.2 hp.1] at harrived

/-- A load that has arrived early. -/
theorem early (h : Alike c c') (he : c.pending = (0, 0)) (hk : k < 32) :
    c.reg k = if k = c'.pending.1 ∧ k ≠ 0 then c'.pending.2 else c'.reg k := by
  rw [← c'.reg_arrive hk, ← h.arrived k hk, c.reg_arrive hk, he, if_neg fun hp => hp.2 hp.1]

theorem write (h : Alike c c') (hk : k < 32) (hwait : k = c'.pending.1 → k = 0) (w : Word) :
    Alike (c.write k w) (c'.write k w) := by
  refine ⟨fun j hj => ?_, h.pending, h.hi, h.lo, h.pc, h.nextPC, h.prevPC⟩
  rw [reg_arrive_write c w hk hj, reg_arrive_write c' w hk hj]
  rcases h.pending with he | he
  · rw [he]
    by_cases hp : j = c'.pending.1 ∧ j ≠ 0
    · rw [if_pos hp, if_pos hp]
    · rw [if_neg hp, if_neg hp, h.reg hj fun h => not_not.mp fun h0 => hp ⟨h, h0⟩]
  · rw [he, if_neg fun hp => hp.2 hp.1, h.early he hj]
    by_cases hjk : j = k ∧ j ≠ 0
    · rw [if_pos hjk, if_neg, if_pos hjk]
      rintro ⟨hp, hj0⟩
      exact hj0 (hjk.1 ▸ hwait (hjk.1 ▸ hp))
    · rw [if_neg hjk, if_neg hjk]

theorem withHi (h : Alike c c') (w : Word) : Alike { c with hi := w } { c' with hi := w } :=
  ⟨h.arrived, h.pending, rfl, h.lo, h.pc, h.nextPC, h.prevPC⟩

theorem withLo (h : Alike c c') (w : Word) : Alike { c with lo := w } { c' with lo := w } :=
  ⟨h.arrived, h.pending, h.hi, rfl, h.pc, h.nextPC, h.prevPC⟩

theorem double (h : Alike c c') (v w : Word) :
    Alike { c with hi := v, lo := w } { c' with hi := v, lo := w } :=
  ⟨h.arrived, h.pending, rfl, rfl, h.pc, h.nextPC, h.prevPC⟩

theorem retire (h : Alike c c') (load : Fin 32 × Word) (target : Word) :
    Alike (c.retire load target) (c'.retire load target) := by
  refine ⟨fun k hk => ?_, .inl rfl, h.hi, h.lo, h.nextPC, rfl, h.pc⟩
  rw [Cpu.reg_arrive _ hk, Cpu.reg_arrive _ hk]
  exact if_congr Iff.rfl rfl (h.arrived k hk)

theorem interrupted (h : Alike c c') (a : Word) : Alike (c.interrupted a) (c'.interrupted a) := by
  refine ⟨fun k hk => ?_, .inl rfl, h.hi, h.lo, h.pc, h.nextPC, h.prevPC⟩
  rw [Cpu.reg_arrive _ hk, Cpu.reg_arrive _ hk]
  exact if_congr Iff.rfl rfl (h.arrived k hk)

/-- A page fault lets the load arrive, and the instruction starts again. -/
theorem faulted (h : Alike c c') (a : Word) : Alike (c.interrupted a) c' := by
  refine ⟨fun k hk => ?_, .inr rfl, h.hi, h.lo, h.pc, h.nextPC, h.prevPC⟩
  rw [Cpu.reg_arrive _ hk, if_neg fun hp => hp.2 hp.1]
  exact h.arrived k hk

end Alike

/-- What happens on the paged memory, and what on the flat one: a page fault leaves the state
where it was, the exceptions that the kernel does not serve are left aside, and else the two go
on alike. -/
inductive Follows (bus : Bus μ) (V : μ → ν → Prop) (c' : Cpu) (n : ν) : Result μ → Result ν → Prop
  | fault {c : Cpu} {m : μ} {y : Result ν} (ha : Alike c c') (hv : V m n)
    (hfault : Faults bus m c.badVAddr) : Follows bus V c' n (.trap .pageFault c m) y
  | halts {which : ExceptionType} {c : Cpu} {m : μ} {y : Result ν} (hp : which ≠ .pageFault)
    (hs : which ≠ .syscall) : Follows bus V c' n (.trap which c m) y
  | unknown {x : Result μ} {u' : Cpu} {n' : ν} : Follows bus V c' n x (.trap .pageFault u' n')
  | next {u u' : Cpu} {m : μ} {n' : ν} (ha : Alike u u') (hv : V m n') :
    Follows bus V c' n (.next u m) (.next u' n')
  | syscall {c : Cpu} {m : μ} (ha : Alike c c') (hv : V m n) :
    Follows bus V c' n (.trap .syscall (c.interrupted 0) m) (.trap .syscall (c'.interrupted 0) n)

namespace Architecture

variable {d d' : Cpu} (hs : Simulates bus flat V) (h : Alike c c') (hv : V m n)

theorem goOn_follows (hv : V m n') (hd : Alike d d') :
    Follows bus V c' n (goOn d m) (goOn d' n') := by
  rw [goOn, goOn, following, following, hd.nextPC]
  exact .next (hd.retire _ _) hv

include h hv in
theorem write_follows (hk : k < 32) (hwait : k = c'.pending.1 → k = 0) (w : Word) :
    Follows bus V c' n (goOn (c.write k w) m) (goOn (c'.write k w) n) :=
  goOn_follows hv (h.write hk hwait w)

include h hv in
theorem signed_follows (hk : k < 32) (hwait : k = c'.pending.1 → k = 0) (x : ℤ) :
    Follows bus V c' n (signed c m k x) (signed c' n k x) := by
  rw [signed, signed]
  split_ifs
  · exact write_follows h hv hk hwait _
  · exact .halts (by decide) (by decide)

include hv in
theorem branch_follows (hd : Alike d d') (taken : Bool) (i : Instruction) :
    Follows bus V c' n (branch taken d m i) (branch taken d' n i) := by
  rw [branch, branch, following, following, hd.nextPC]
  exact .next (hd.retire _ _) hv

include hs h hv in
theorem load_follows (a : Word) (size : ℕ) {f g : Word → Word} (hfg : ∀ w, f w = g w) :
    Follows bus V c' n (load bus c m i a size f) (load flat c' n i a size g) := by
  rw [load, load, following, following, h.nextPC, funext hfg]
  cases hread : bus.readMem m a size with
  | error e =>
    by_cases he : e = .pageFault
    · subst he
      exact .fault (h.faulted a) hv (.inl ⟨size, hread⟩)
    · exact .halts he fun hsys => hs.readTrap (hsys ▸ hread)
  | ok x =>
    obtain ⟨hv', hflat | hflat⟩ := hs.read hv hread
    · rw [hflat]
      exact .unknown
    · rw [hflat]
      exact .next (h.retire _ _) hv'

include hs h hv in
theorem store_follows (a : Word) (size : ℕ) (w : Word) :
    Follows bus V c' n (store bus c m a size w) (store flat c' n a size w) := by
  rw [store, store]
  cases hwrite : bus.writeMem m a size w with
  | error e =>
    by_cases he : e = .pageFault
    · subst he
      exact .fault (h.faulted a) hv (.inr ⟨size, w, hwrite⟩)
    · exact .halts he fun hsys => hs.writeTrap (hsys ▸ hwrite)
  | ok m' =>
    rcases hs.write hv hwrite with hflat | ⟨n', hflat, hv'⟩
    · rw [hflat]
      exact .unknown
    · rw [hflat]
      exact goOn_follows hv' h

theorem aligned_follows {a : Word} (size : ℕ) {x : Result μ} {y : Result ν}
    (hxy : Follows bus V c' n x y) : Follows bus V c' n (aligned c m a size x) (aligned c' n a size y) := by
  rw [aligned, aligned]
  split_ifs
  · exact hxy
  · exact .halts (by decide) (by decide)

/-! The unaligned accesses, at the start of a word. -/

theorem loadPart_eq {a : Word} (hal : a.toNat % 4 = 0) (join : Word → Word → Word) :
    loadPart bus c m i a join = load bus c m i a 4 fun w => join w (held c i) := by
  rw [loadPart, load, wordOf_eq hal]

theorem storePart_eq {a : Word} (hal : a.toNat % 4 = 0) (join : Word → Word → Word) :
    storePart bus c m i a join = match bus.readMem m a 4 with
      | .error e => trap e a c m
      | .ok (w, m) => store bus c m a 4 (join (c.reg i.rt) w) := by
  rw [storePart, wordOf_eq hal]
  rfl

include hs h hv in
theorem loadPart_follows {a : Word} (hal : a.toNat % 4 = 0) (hheld : held c i = held c' i)
    (join : Word → Word → Word) :
    Follows bus V c' n (loadPart bus c m i a join) (loadPart flat c' n i a join) := by
  rw [loadPart_eq hal, loadPart_eq hal, hheld]
  exact load_follows hs h hv a 4 fun w => rfl

include hs h hv in
theorem storePart_follows {a : Word} (hal : a.toNat % 4 = 0) (hrt : c.reg i.rt = c'.reg i.rt)
    (join : Word → Word → Word) :
    Follows bus V c' n (storePart bus c m i a join) (storePart flat c' n i a join) := by
  rw [storePart_eq hal, storePart_eq hal, hrt]
  cases hread : bus.readMem m a 4 with
  | error e =>
    by_cases he : e = .pageFault
    · subst he
      exact .fault (h.faulted a) hv (.inl ⟨4, hread⟩)
    · exact .halts he fun hsys => hs.readTrap (hsys ▸ hread)
  | ok x =>
    obtain ⟨hv', hflat | hflat⟩ := hs.read hv hread
    · rw [hflat]
      exact .unknown
    · rw [hflat]
      exact store_follows hs h hv' a 4 _

end Architecture

theorem held_eq_of_alike (h : Alike c c') (hrt : i.rt < 32) (h0 : i.rt ≠ 0) :
    Architecture.held c i = Architecture.held c' i := by
  rw [Architecture.held, Architecture.held]
  rcases h.pending with he | he
  · rw [he]
    split_ifs with hp
    · rfl
    · exact h.reg hrt fun hrt' => absurd hrt'.symm hp
  · have hne : ¬ ((0 : Fin 32) : ℕ) = i.rt := fun hrt0 => h0 hrt0.symm
    rw [he, if_neg hne, h.early he hrt]
    split_ifs with hp hp' hp'
    · rfl
    · exact absurd hp.1.symm hp'
    · exact absurd ⟨hp'.symm, h0⟩ hp
    · rfl

open Architecture in
/-- One instruction, on the paged memory and on the flat one. -/
theorem execute_follows (hs : Simulates bus flat V) (h : Alike c c') (hv : V m n) (hi : i.Proper)
    (hfree : HazardFree c' i) (hslips : ¬ Slips flat c' n i) :
    Follows bus V c' n (Architecture.execute bus c m i) (Architecture.execute flat c' n i) := by
  have hreg : ∀ k ∈ i.touched, k < 32 → c.reg k = c'.reg k := fun k hk hlt =>
    h.reg hlt (hfree.waits k hk)
  have hwait := hfree.waits
  have hnext : following c = following c' := by rw [following, following, h.nextPC]
  have hregion : region c i = region c' i := by rw [region, region, h.nextPC]
  simp only [Architecture.execute]
  rw [Slips] at hslips
  cases hop : i.opCode <;>
    simp only [Instruction.touched, hop, List.mem_cons, List.not_mem_nil, or_false,
      forall_eq_or_imp, forall_eq] at hreg hwait hslips ⊢
  case add | sub =>
    rw [hreg.1 hi.rs, hreg.2.1 hi.rt]
    exact signed_follows h hv hi.rd hwait.2.2 _
  case addu | subu | and | or | xor | nor | slt | sltu | sllv | srlv | srav =>
    rw [hreg.1 hi.rs, hreg.2.1 hi.rt]
    exact write_follows h hv hi.rd hwait.2.2 _
  case addi =>
    rw [hreg.1 hi.rs]
    exact signed_follows h hv hi.rt hwait.2 _
  case addiu | slti | sltiu | andi | ori | xori =>
    rw [hreg.1 hi.rs]
    exact write_follows h hv hi.rt hwait.2 _
  case lui => exact write_follows h hv hi.rt hwait _
  case sll | srl | sra =>
    rw [hreg.1 hi.rt]
    exact write_follows h hv hi.rd hwait.2 _
  case mfhi =>
    rw [h.hi]
    exact write_follows h hv hi.rd hwait _
  case mflo =>
    rw [h.lo]
    exact write_follows h hv hi.rd hwait _
  case mthi =>
    rw [hreg hi.rs]
    exact goOn_follows hv (h.withHi _)
  case mtlo =>
    rw [hreg hi.rs]
    exact goOn_follows hv (h.withLo _)
  case mult | multu =>
    rw [hreg.1 hi.rs, hreg.2 hi.rt]
    exact goOn_follows hv (h.double _ _)
  case div | divu =>
    rw [hreg.1 hi.rs, hreg.2 hi.rt]
    split_ifs <;> exact goOn_follows hv (h.double _ _)
  case beq | bne =>
    rw [hreg.1 hi.rs, hreg.2 hi.rt]
    exact branch_follows hv h _ i
  case bgez | bgtz | blez | bltz =>
    rw [hreg hi.rs]
    exact branch_follows hv h _ i
  case bgezal | bltzal =>
    rw [hreg.1 hi.rs, hnext]
    exact branch_follows hv (h.write (by decide) hwait.2 _) _ i
  case j =>
    rw [hregion]
    exact .next (h.retire _ _) hv
  case jal =>
    rw [hregion, hnext]
    exact .next ((h.write (by decide) hwait _).retire _ _) hv
  case jr =>
    rw [hreg hi.rs]
    exact .next (h.retire _ _) hv
  case jalr =>
    rw [hreg.1 hi.rs, hnext]
    exact .next ((h.write hi.rd hwait.2 _).retire _ _) hv
  case lb | lbu =>
    rw [hreg hi.rs]
    exact load_follows hs h hv _ _ fun w => rfl
  case lh | lhu | lw =>
    rw [hreg hi.rs]
    exact aligned_follows _ (load_follows hs h hv _ _ fun w => rfl)
  case lwl =>
    rw [hreg hi.rs]
    exact loadPart_follows hs h hv (not_not.mp (not_or.mp hslips).1)
      (held_eq_of_alike h hi.rt (hfree.target (.inl hop))) _
  case lwr =>
    rw [hreg hi.rs]
    exact loadPart_follows hs h hv (not_not.mp (not_or.mp hslips).1)
      (held_eq_of_alike h hi.rt (hfree.target (.inr hop))) _
  case sb | sh | sw =>
    rw [hreg.1 hi.rs, hreg.2 hi.rt]
    exact store_follows hs h hv _ _ _
  case swl | swr =>
    rw [hreg.1 hi.rs]
    exact storePart_follows hs h hv (not_not.mp (not_or.mp hslips).1) (hreg.2 hi.rt) _
  case syscall => exact .syscall h hv
  case res | unimp | rfe | special | bcond => exact .halts (by decide) (by decide)

theorem overwritten_of_hazardFree (c' : Cpu) (hk : k < 32) (hwait : k = c'.pending.1 → k = 0)
    (hk0 : k ≠ 0) : c'.pending.1 ≠ Fin.ofNat 32 k := by
  rw [pending_ne_iff hk]
  exact fun hp => hk0 (hwait hp)

open Architecture in
theorem loads_slip {join join' other : Word → Word → Word} (hs : Simulates bus flat V)
    (hv : V m n) (haddress : c.address i = c'.address i) (hheld : held c i = held c' i)
    (hopen : ∀ u n', Architecture.loadPart flat c' n i (c'.address i) join' ≠ .trap .pageFault u n')
    (hslips : (c.address i).toNat % 4 ≠ 0 ∨ LoadsApart bus c m i join other) :
    (c'.address i).toNat % 4 ≠ 0 ∨ LoadsApart flat c' n i join other := by
  rw [haddress] at hslips
  refine or_iff_not_imp_left.mpr fun hal => ?_
  obtain ⟨value, m', hread, hne⟩ := hslips.resolve_left hal
  rw [haddress] at hread
  rw [hheld] at hne
  rw [not_not] at hal
  refine ⟨value, n, (hs.read hv hread).2.resolve_left fun hflat => ?_, hne⟩
  refine hopen (c'.interrupted (c'.address i)) n ?_
  rw [loadPart_eq hal, Architecture.load, hflat]
  rfl

open Architecture in
theorem stores_slip {join join' other : Word → Word → Word} (hs : Simulates bus flat V)
    (hv : V m n) (haddress : c.address i = c'.address i) (hrt : c.reg i.rt = c'.reg i.rt)
    (hjoin : (c'.address i).toNat % 4 = 0 → join' = join)
    (hopen : ∀ u n', storePart flat c' n i (c'.address i) join' ≠ .trap .pageFault u n')
    (hslips : (c.address i).toNat % 4 ≠ 0 ∨ StoresApart bus c m i join other) :
    (c'.address i).toNat % 4 ≠ 0 ∨ StoresApart flat c' n i join other := by
  rw [haddress] at hslips
  refine or_iff_not_imp_left.mpr fun hal => ?_
  obtain ⟨value, m', hread, hne⟩ := hslips.resolve_left hal
  rw [haddress] at hread hne
  rw [hrt] at hne
  rw [not_not] at hal
  rw [hjoin hal] at hopen
  obtain ⟨hv', hflat⟩ := hs.read hv hread
  have hflat : flat.readMem n (c'.address i) 4 = .ok (value, n) := by
    refine hflat.resolve_left fun hfault => hopen (c'.interrupted (c'.address i)) n ?_
    rw [storePart_eq hal, hfault]
    rfl
  refine ⟨value, n, hflat, fun heq => hne ?_⟩
  cases hwrite : bus.writeMem m' (c'.address i) 4 (join (c'.reg i.rt) value) with
  | error e => exact (bus.translated hwrite).symm
  | ok mj =>
    rcases hs.write hv' hwrite with hfault | ⟨n', hkept, -⟩
    · refine absurd ?_ (hopen (c'.interrupted (c'.address i)) n)
      simp only [storePart_eq hal, hflat, store, hfault]
      rfl
    · rw [← hs.keeps hkept (heq.symm.trans hkept), hwrite]

open Architecture in
/-- Where the simulator slips on the paged memory it slips on the flat one, unless what the flat one
does is open. -/
theorem slips_of_alike (hs : Simulates bus flat V) (h : Alike c c') (hv : V m n) (hi : i.Proper)
    (hfree : HazardFree c' i)
    (hopen : ∀ u n', Architecture.execute flat c' n i ≠ .trap .pageFault u n')
    (hslips : Slips bus c m i) : Slips flat c' n i := by
  have hreg : ∀ k ∈ i.touched, k < 32 → c.reg k = c'.reg k := fun k hk hlt =>
    h.reg hlt (hfree.waits k hk)
  have hwait := hfree.waits
  have hnext : following c = following c' := by rw [following, following, h.nextPC]
  unfold Slips at hslips ⊢
  unfold Architecture.execute at hopen
  cases hop : i.opCode <;>
    simp only [Instruction.touched, hop, List.mem_cons, List.not_mem_nil, or_false,
      forall_eq_or_imp, forall_eq] at hreg hwait hslips hopen ⊢
  case or =>
    rw [hreg.1 hi.rs, hreg.2.1 hi.rt] at hslips
    exact ⟨hslips.1, hslips.2.1, overwritten_of_hazardFree c' hi.rd hwait.2.2 hslips.2.1⟩
  case srl =>
    rw [hreg.1 hi.rt] at hslips
    exact ⟨hslips.1, hslips.2.1, hslips.2.2.1,
      overwritten_of_hazardFree c' hi.rd hwait.2 hslips.2.2.1⟩
  case srlv =>
    rw [hreg.1 hi.rs, hreg.2.1 hi.rt] at hslips
    exact ⟨hslips.1, hslips.2.1, hslips.2.2.1,
      overwritten_of_hazardFree c' hi.rd hwait.2.2 hslips.2.2.1⟩
  case div => rwa [hreg.1 hi.rs, hreg.2 hi.rt] at hslips
  case jalr => rwa [hreg.1 hi.rs, hnext] at hslips
  case bgezal | bltzal => rwa [hreg.2 (by decide), hnext] at hslips
  case j | jal => rwa [h.nextPC, hnext] at hslips
  case lwl =>
    exact loads_slip hs hv (congrArg (· + i.extra) (hreg hi.rs))
      (held_eq_of_alike h hi.rt (hfree.target (.inl hop))) hopen hslips
  case lwr =>
    exact loads_slip hs hv (congrArg (· + i.extra) (hreg hi.rs))
      (held_eq_of_alike h hi.rt (hfree.target (.inr hop))) hopen hslips
  case swl =>
    exact stores_slip hs hv (congrArg (· + i.extra) (hreg.1 hi.rs)) (hreg.2 hi.rt)
      (fun hal => congrArg (fun k => movedDown (3 - k)) hal) hopen hslips
  case swr =>
    exact stores_slip hs hv (congrArg (· + i.extra) (hreg.1 hi.rs)) (hreg.2 hi.rt)
      (congrArg movedUp) hopen hslips

/-- The next instruction waits for the load before it. -/
def Waits (bus : Bus μ) (c : Cpu) (m : μ) : Prop := ∀ i m', Fetched bus c m i m' → HazardFree c i

/-- The simulator slips on the next instruction. -/
def Slipping (bus : Bus μ) (c : Cpu) (m : μ) : Prop := ∃ i m', Fetched bus c m i m' ∧ Slips bus c m' i

/-- `OneInstruction` on the paged memory follows the architecture on the flat one, as far as that
has the bytes. -/
theorem oneInstruction_follows
    {exceptionHandler : ExceptionType → Machine μ → Option (Machine μ)} {s : Machine μ}
    (hs : Simulates bus flat V) (h : Alike c c') (hv : V m n) (hwaits : Waits flat c' n)
    (hslips : ¬ Slipping flat c' n)
    (hok : oneInstruction bus exceptionHandler ⟨c.toRegisters, m⟩ = .ok s) :
    (∃ u n', Architecture.oneInstruction flat c' n = .trap .pageFault u n') ∨
      ∃ x, Follows bus V c' n x (Architecture.oneInstruction flat c' n) ∧
        x.handled exceptionHandler = .ok s := by
  have hpc : c.toRegisters pcReg = c'.pc := h.pc
  simp only [oneInstruction, hpc] at hok
  rw [Architecture.oneInstruction]
  cases hread : bus.readMem m c'.pc 4 with
  | error e =>
    rw [hread] at hok
    refine .inr ⟨.trap e (c.interrupted c'.pc) m, ?_, (raiseException_eq c m e c'.pc).symm.trans hok⟩
    by_cases he : e = .pageFault
    · subst he
      exact .fault (h.faulted c'.pc) hv (.inl ⟨4, hread⟩)
    · exact .halts he fun hsys => hs.readTrap (hsys ▸ hread)
  | ok x =>
    rw [hread] at hok
    obtain ⟨hv', hflat | hflat⟩ := hs.read hv hread
    · rw [hflat]
      exact .inl ⟨_, _, rfl⟩
    · have hfetched : Fetched flat c' n (decode x.1) n := ⟨x.1, hflat, rfl⟩
      have hfree := hwaits _ _ hfetched
      have hslips : ¬ Slips flat c' n (decode x.1) := fun h => hslips ⟨_, _, hfetched, h⟩
      have hproper := proper_decode x.1
      rw [hflat]
      by_cases hopen : ∃ u n', Architecture.execute flat c' n (decode x.1) = .trap .pageFault u n'
      · exact .inl hopen
      · push Not at hopen
        refine .inr ⟨_, execute_follows hs h hv' hproper hfree hslips, ?_⟩
        exact ((execute_eq_iff hproper).mpr
          fun hc => hslips (slips_of_alike hs h hv' hproper hfree hopen hc)).symm.trans hok

/-! Where an instruction ends, whatever the program does. -/

/-- An exception comes before any write to the memory. -/
inductive Ends (bus : Bus μ) (P Q : μ → Prop) : Outcome μ → Prop
  | next {r : Registers} {m : μ} {load : ℕ} {value target : Word} (h : P m) :
    Ends bus P Q (.next r m load value target)
  | raise {which : ExceptionType} {a : Word} {m : μ} (h : Q m)
    (hf : which = .pageFault → Faults bus m a) : Ends bus P Q (.raise which a m)
  | stop {f : Fault} : Ends bus P Q (.stop f)

section
variable {P Q : μ → Prop} {r r' : Registers}
  (hread : ∀ {m m' a k w}, P m ∧ Q m → bus.readMem m a k = .ok (w, m') → P m' ∧ Q m')
  (hwrite : ∀ {m m' a k w}, P m → bus.writeMem m a k w = .ok m' → P m')

include hread in
theorem ends_load (hm : P m ∧ Q m) (a : Word) (size : ℕ) (f : Word → Word) :
    Ends bus P Q (load bus r m i a size f) := by
  rw [load]
  cases hr : bus.readMem m a size with
  | error e => exact .raise hm.2 fun he => .inl ⟨size, he ▸ hr⟩
  | ok x => exact .next (hread hm hr).1

include hwrite in
theorem ends_write (hm : P m ∧ Q m) (a : Word) (size : ℕ) (w : Word) :
    Ends bus P Q (write bus r m a size w) := by
  rw [write]
  cases hw : bus.writeMem m a size w with
  | error e => exact .raise hm.2 fun he => .inr ⟨size, w, he ▸ hw⟩
  | ok m' => exact .next (hwrite hm.1 hw)

include hread in
theorem ends_loadPart (hm : P m ∧ Q m) (join : Word → Word → Word) :
    Ends bus P Q (loadPart bus r m i join) := by
  simp only [loadPart]
  split_ifs
  · exact ends_load hread hm _ _ _
  · exact ends_load hread hm _ _ _
  · exact .stop

include hread hwrite in
theorem ends_writePart (hm : P m ∧ Q m) (join : Word → Word → Word) :
    Ends bus P Q (writePart bus r m i join) := by
  simp only [writePart]
  split_ifs
  · cases hr : bus.readMem m ((r i.rs + i.extra) &&& ~~~3) 4 with
    | error e => exact .raise hm.2 fun he => .inl ⟨4, he ▸ hr⟩
    | ok x => exact ends_write hwrite (hread hm hr) _ _ _
  · exact .stop

include hread hwrite in
theorem ends_execute (hm : P m ∧ Q m) : Ends bus P Q (execute bus r m i) := by
  simp only [execute]
  cases i.opCode <;> simp only
  case add | addi | sub =>
    split_ifs
    · exact .raise hm.2 fun he => by cases he
    · exact .next hm.1
  case div | divu =>
    split_ifs
    all_goals first | exact .next hm.1 | exact .stop
  case lb | lbu => exact ends_load hread hm _ _ _
  case lh | lhu | lw =>
    split_ifs
    · exact .raise hm.2 fun he => by cases he
    · exact ends_load hread hm _ _ _
  case lwl | lwr => exact ends_loadPart hread hm _
  case sb | sh | sw => exact ends_write hwrite hm _ _ _
  case swl | swr => exact ends_writePart hread hwrite hm _
  case syscall | res | unimp => exact .raise hm.2 fun he => by cases he
  case rfe | special | bcond => exact .stop
  all_goals exact .next hm.1

include hread hwrite in
/-- `OneInstruction` comes to its end, or goes on in the kernel, after a page fault or after
another exception. -/
theorem oneInstruction_ends
    {exceptionHandler : ExceptionType → Machine μ → Option (Machine μ)} {s : Machine μ}
    (hm : P m ∧ Q m) (hok : oneInstruction bus exceptionHandler ⟨c.toRegisters, m⟩ = .ok s) :
    P s.memory ∨ ∃ which a m', (which = .pageFault → Faults bus m' a) ∧ Q m' ∧
      exceptionHandler which ⟨(c.interrupted a).toRegisters, m'⟩ = some s := by
  simp only [oneInstruction] at hok
  cases hr : bus.readMem m (c.toRegisters pcReg) 4 with
  | error e =>
    rw [hr] at hok
    refine .inr ⟨e, c.pc, m, fun he => .inl ⟨4, he ▸ hr⟩, hm.2, ?_⟩
    exact inKernel_eq_ok.mp ((raiseException_eq c m e c.pc).symm.trans hok)
  | ok x =>
    rw [hr] at hok
    have hends := ends_execute (r := c.toRegisters) (i := decode x.1) hread hwrite (hread hm hr)
    simp only at hok
    cases hx : execute bus c.toRegisters x.2 (decode x.1) with
    | next r m' load value target =>
      rw [hx] at hok hends
      cases hends with
      | next h =>
        left
        simp only [finish, advance] at hok
        cases hd : delayedLoad r load value with
        | error f =>
          rw [hd] at hok
          cases hok
        | ok r' =>
          rw [hd] at hok
          cases hok
          exact h
    | raise which a m' =>
      rw [hx] at hok hends
      cases hends with
      | raise h hf =>
        refine .inr ⟨which, a, m', hf, h, ?_⟩
        exact inKernel_eq_ok.mp ((raiseException_eq c m' which a).symm.trans hok)
    | stop f =>
      rw [hx] at hok
      cases hok

end

end Nachos.Mips
