import Nachos.KernelMemoryCoherence

/-! `copyin` and `copyout` of `userprog/exception.cc`: the kernel reads and writes user memory byte
by byte. An access that misses the TLB has its page fault handled and fails; `copyin` tries again. -/
namespace Nachos.Paging
open Executions WriteBack

variable {Thread Space : Type*} [DecidableEq Thread] [DecidableEq Space]
  {cfg : Config Thread Space} {s u : State Thread Space}

/-- `HandlePageFault` of the current thread from where it is. -/
def runHandler (cfg : Config Thread Space) (random : ℕ) :
    ℕ → State Thread Space → Except Stop (State Thread Space)
  | 0, s => .ok s
  | n + 1, s =>
    if s.phase s.currentThread = .user then .ok s
    else
      match handlePageFault cfg s random with
      | .error e => .error e
      | .ok s => runHandler cfg random n s

/-- The handler has at most seven steps. -/
def handlerSteps : ℕ := 7

/-- What `ReadMem` or `WriteMem` comes to with its exception handled; `none` is `FALSE`. -/
def serve (cfg : Config Thread Space) (random : ℕ) :
    Except Stop (State Thread Space × Option (List UInt8)) →
      Except Stop (State Thread Space × Option (List UInt8))
  | .error e => .error e
  | .ok (s, some bytes) => .ok (s, some bytes)
  | .ok (s, none) =>
    match runHandler cfg random handlerSteps s with
    | .error e => .error e
    | .ok s => .ok (s, none)

/-- The loop of `copyout`, with `n` bytes written so far; the value returned. -/
def copyoutFrom (cfg : Config Thread Space) (random : ℕ) :
    State Thread Space → ℕ → ℕ → List UInt8 → Except Stop (State Thread Space × ℤ)
  | s, _, n, [] => .ok (s, n)
  | s, vaddr, n, b :: buf =>
    match serve cfg random (writeMem s vaddr [b]) with
    | .error e => .error e
    | .ok (s, none) => .ok (s, -1)
    | .ok (s, some _) => copyoutFrom cfg random s (vaddr + 1) (n + 1) buf

def copyout (cfg : Config Thread Space) (random : ℕ) (s : State Thread Space) (vaddr : ℕ)
    (buf : List UInt8) : Except Stop (State Thread Space × ℤ) :=
  copyoutFrom cfg random s vaddr 0 buf

/-- `ReadMem` of one byte with its exception handled, as a function of `rand()`, the state and the
address. -/
abbrev ReadByte (Thread Space : Type*) :=
  ℕ → State Thread Space → ℕ → Except Stop (State Thread Space × Option (List UInt8))

/-- The inner loop of `copyin`, `while(!result)`, with its last result; `none` when it has not come
to an end. -/
def readUntil (read : ReadByte Thread Space) (random : ℕ → ℕ) (vaddr : ℕ) :
    ℕ → State Thread Space → Except Stop (Option (State Thread Space × Bool × UInt8))
  | 0, _ => .ok none
  | fuel + 1, s =>
    match read (random fuel) s vaddr with
    | .error e => .error e
    | .ok (s, some bytes) => .ok (some (s, true, bytes.headD 0))
    | .ok (s, none) => readUntil read random vaddr fuel s

/-- The loop of `copyin` with the bytes so far: the value returned, and the buffer. -/
def copyinFrom (read : ReadByte Thread Space) (random : ℕ → ℕ) (fuel : ℕ) :
    State Thread Space → ℕ → List UInt8 → ℕ →
      Except Stop (Option (State Thread Space × ℤ × List UInt8))
  | s, _, buf, 0 => .ok (some (s, buf.length, buf))
  | s, vaddr, buf, len + 1 =>
    match readUntil read random vaddr fuel s with
    | .error e => .error e
    | .ok none => .ok none
    | .ok (some (s, result, b)) =>
      if result then copyinFrom read random fuel s (vaddr + 1) (buf ++ [b]) len
      else .ok (some (s, -1, buf ++ [b]))

def copyin (cfg : Config Thread Space) (random : ℕ → ℕ) (fuel : ℕ) (s : State Thread Space)
    (vaddr len : ℕ) : Except Stop (Option (State Thread Space × ℤ × List UInt8)) :=
  copyinFrom (fun random s vaddr => serve cfg random (readMem s vaddr 1)) random fuel s vaddr [] len

/-! One access. -/

/-- The slots of the TLB show the same pages, and the same thread runs. -/
structure SameSlots (s u : State Thread Space) : Prop where
  thread : u.currentThread = s.currentThread
  phase : u.phase = s.phase
  slot : ∀ i, (u.tlb i).valid = (s.tlb i).valid ∧ (u.tlb i).virtualPage = (s.tlb i).virtualPage ∧
    (u.tlb i).physicalPage = (s.tlb i).physicalPage ∧ (u.tlb i).readOnly = (s.tlb i).readOnly

omit [DecidableEq Thread] [DecidableEq Space] in
theorem SameSlots.findTLB (h : SameSlots s u) (v : ℕ) : findTLB u v = findTLB s v := by
  unfold Paging.findTLB
  congr 1
  funext i
  obtain ⟨hv, hp, -, -⟩ := h.slot i
  rw [hv, hp]

omit [DecidableEq Thread] [DecidableEq Space] in
theorem SameSlots.trans {w : State Thread Space} (h : SameSlots s u) (h' : SameSlots u w) :
    SameSlots s w := by
  refine ⟨h'.thread.trans h.thread, h'.phase.trans h.phase, fun i => ?_⟩
  obtain ⟨h1, h2, h3, h4⟩ := h.slot i
  obtain ⟨h1', h2', h3', h4'⟩ := h'.slot i
  exact ⟨h1'.trans h1, h2'.trans h2, h3'.trans h3, h4'.trans h4⟩

omit [DecidableEq Thread] [DecidableEq Space] in
theorem sameSlots_translated {address size physAddr : ℕ} {writing : Bool} {i : Fin tlbSize}
    (ht : Translated s u address size writing i physAddr) : SameSlots s u := by
  rw [ht.tlb]
  refine ⟨rfl, rfl, fun j => ?_⟩
  by_cases hj : j = i
  · subst hj
    simp [State.setTLB]
  · simp [State.setTLB, hj]

/-- The physical address that the TLB shows. -/
def physAddr? (s : State Thread Space) (address : ℕ) : Option ℕ :=
  (findTLB s (address / pageSize)).map fun i =>
    (s.tlb i).physicalPage * pageSize + address % pageSize

omit [DecidableEq Thread] [DecidableEq Space] in
theorem SameSlots.physAddr? (h : SameSlots s u) (address : ℕ) :
    physAddr? u address = physAddr? s address := by
  unfold Paging.physAddr?
  rw [h.findTLB]
  congr 1
  funext i
  rw [(h.slot i).2.2.1]

omit [DecidableEq Thread] [DecidableEq Space] in
theorem findTLB_valid {v : ℕ} {i : Fin tlbSize} (h : findTLB s v = some i) :
    (s.tlb i).valid = true ∧ (s.tlb i).virtualPage = v := by
  have hi := List.find?_some h
  simpa using hi

/-- Slots can be used: their frames exist, no page is read-only, and no frame is shown twice. -/
structure Usable (s : State Thread Space) : Prop where
  user : s.phase s.currentThread = .user
  frame : ∀ i, (s.tlb i).valid = true → (s.tlb i).physicalPage < numPhysPages
  writable : ∀ i, (s.tlb i).valid = true → (s.tlb i).readOnly = false
  once : ∀ i j, (s.tlb i).valid = true → (s.tlb j).valid = true →
    (s.tlb i).physicalPage = (s.tlb j).physicalPage → i = j

omit [DecidableEq Thread] [DecidableEq Space] in
theorem Usable.of_same (h : Usable s) (hs : SameSlots s u) : Usable u := by
  refine ⟨by rw [hs.phase, hs.thread]; exact h.user, fun i hi => ?_, fun i hi => ?_,
    fun i j hi hj hij => ?_⟩
  · obtain ⟨hv, -, hp, -⟩ := hs.slot i
    rw [hp]
    exact h.frame i (hv ▸ hi)
  · obtain ⟨hv, -, -, hr⟩ := hs.slot i
    rw [hr]
    exact h.writable i (hv ▸ hi)
  · obtain ⟨hvi, -, hpi, -⟩ := hs.slot i
    obtain ⟨hvj, -, hpj, -⟩ := hs.slot j
    exact h.once i j (hvi ▸ hi) (hvj ▸ hj) (hpi ▸ hpj ▸ hij)

omit [DecidableEq Thread] [DecidableEq Space] in
/-- Different addresses are in different places. -/
theorem Usable.physAddr_inj (h : Usable s) {a b p : ℕ} (ha : physAddr? s a = some p)
    (hb : physAddr? s b = some p) : a = b := by
  obtain ⟨i, hi, rfl⟩ := Option.map_eq_some_iff.mp ha
  obtain ⟨j, hj, hp⟩ := Option.map_eq_some_iff.mp hb
  obtain ⟨hvi, hpi⟩ := findTLB_valid hi
  obtain ⟨hvj, hpj⟩ := findTLB_valid hj
  have hma := Nat.mod_lt a (show 0 < pageSize by decide)
  have hmb := Nat.mod_lt b (show 0 < pageSize by decide)
  have hframe : (s.tlb i).physicalPage = (s.tlb j).physicalPage := by
    unfold pageSize at hp hma hmb
    omega
  obtain rfl := h.once i j hvi hvj hframe
  have hda := Nat.div_add_mod' a pageSize
  have hdb := Nat.div_add_mod' b pageSize
  rw [← hpi] at hda
  rw [← hpj] at hdb
  omega

omit [DecidableEq Thread] [DecidableEq Space] in
theorem translate_hit {address : ℕ} {i : Fin tlbSize} (h : Usable s)
    (hi : findTLB s (address / pageSize) = some i) (writing : Bool) :
    translate s address 1 writing = .ok (some (s.setTLB i
      { s.tlb i with use := true, dirty := (s.tlb i).dirty || writing },
      (s.tlb i).physicalPage * pageSize + address % pageSize)) := by
  obtain ⟨hv, -⟩ := findTLB_valid hi
  have hframe := h.frame i hv
  simp [translate, hi, h.writable i hv, hframe]

omit [DecidableEq Space] in
/-- A write to a page in the TLB changes its byte. -/
theorem writeMem_hit {address p : ℕ} {b : UInt8} (h : Usable s) (ha : address < 2 ^ 31)
    (hp : physAddr? s address = some p) : ∃ u, writeMem s address [b] = .ok (u, some []) ∧
      SameSlots s u ∧ u.mainMemory = copyTo s.mainMemory p 1 fun k => [b].getD k 0 := by
  obtain ⟨i, hi, rfl⟩ := Option.map_eq_some_iff.mp hp
  have ht := translate_hit h hi true
  obtain ⟨j, hj⟩ := translate_some ht
  refine ⟨{ s.setTLB i { s.tlb i with use := true, dirty := (s.tlb i).dirty || true } with
    mainMemory := copyTo s.mainMemory ((s.tlb i).physicalPage * pageSize + address % pageSize) 1
      fun k => [b].getD k 0 }, ?_, ?_, rfl⟩
  · unfold writeMem access
    rw [if_pos ⟨h.user, Or.inl rfl, ha⟩, List.length_singleton, ht]
    rfl
  · have hs := sameSlots_translated hj
    exact ⟨hs.thread, hs.phase, hs.slot⟩

omit [DecidableEq Space] in
/-- A read of a page in the TLB returns its byte. -/
theorem readMem_hit {address p : ℕ} (h : Usable s) (ha : address < 2 ^ 31)
    (hp : physAddr? s address = some p) : ∃ u,
      readMem s address 1 = .ok (u, some [s.mainMemory p]) ∧ SameSlots s u ∧
      u.mainMemory = s.mainMemory := by
  obtain ⟨i, hi, rfl⟩ := Option.map_eq_some_iff.mp hp
  have ht := translate_hit h hi false
  obtain ⟨j, hj⟩ := translate_some ht
  refine ⟨_, ?_, sameSlots_translated hj, rfl⟩
  unfold readMem access
  rw [if_pos ⟨h.user, Or.inl rfl, ha⟩, ht]
  rfl

variable (cfg) in
/-- A write to a page that is not in the TLB returns `FALSE`, or the machine stops. -/
theorem writeMem_miss {address : ℕ} {b : UInt8} (hp : physAddr? s address = none) (random : ℕ) :
    (∃ e, serve cfg random (writeMem s address [b]) = .error e) ∨
      ∃ u, serve cfg random (writeMem s address [b]) = .ok (u, none) := by
  have hnone : findTLB s (address / pageSize) = none := Option.map_eq_none_iff.mp hp
  unfold writeMem access
  split_ifs
  · have ht : translate s address [b].length true = .ok none := by
      simp [translate, hnone]
    rw [ht]
    simp only [serve]
    cases runHandler cfg random handlerSteps (s.setPhase (.faulted (address / pageSize))) with
    | error e => exact Or.inl ⟨e, rfl⟩
    | ok w => exact Or.inr ⟨w, rfl⟩
  · exact Or.inl ⟨_, rfl⟩

/-! The loops. -/

variable (cfg) in
/-- `copyout` over pages that the TLB shows. -/
theorem copyoutFrom_hits (random : ℕ) (buf : List UInt8) : ∀ {s : State Thread Space} {va n : ℕ},
    Usable s → va + buf.length ≤ 2 ^ 31 → (∀ k < buf.length, (physAddr? s (va + k)).isSome) →
    ∃ u, copyoutFrom cfg random s va n buf = .ok (u, (n + buf.length : ℕ)) ∧ SameSlots s u ∧
      (∀ k (hk : k < buf.length) p, physAddr? s (va + k) = some p → u.mainMemory p = buf[k]) ∧
      ∀ p, (∀ k < buf.length, physAddr? s (va + k) ≠ some p) →
        u.mainMemory p = s.mainMemory p := by
  induction buf with
  | nil =>
    intro s va n h _ _
    exact ⟨s, rfl, ⟨rfl, rfl, fun _ => ⟨rfl, rfl, rfl, rfl⟩⟩, by simp, fun _ _ => rfl⟩
  | cons b buf ih =>
    intro s va n h hva hshown
    rw [List.length_cons] at hva
    obtain ⟨p, hp⟩ := Option.isSome_iff_exists.mp (hshown 0 (by simp))
    rw [Nat.add_zero] at hp
    obtain ⟨w, hw, hsame, hmemory⟩ := writeMem_hit (b := b) h (by omega) hp
    have hphys := hsame.physAddr?
    obtain ⟨u, hu, hsame', hset, hkept⟩ := @ih w (va + 1) (n + 1)
      (h.of_same hsame) (by omega) fun k hk => by
        rw [hphys, Nat.add_assoc, Nat.add_comm 1 k]
        exact hshown (k + 1) (by simpa using hk)
    -- the later bytes go to other places
    have hfirst : u.mainMemory p = b := by
      rw [hkept p fun k _ hk => ?_, hmemory]
      · simp [copyTo]
      · rw [hphys] at hk
        have := h.physAddr_inj hp hk
        omega
    refine ⟨u, ?_, hsame.trans hsame', fun k hk q hq => ?_, fun q hq => ?_⟩
    · rw [copyoutFrom, hw]
      simp only [serve]
      rw [hu, List.length_cons, Nat.add_assoc, Nat.add_comm 1]
    · cases k with
      | zero =>
        rw [Nat.add_zero, hp] at hq
        rw [← Option.some.inj hq]
        exact hfirst
      | succ k =>
        exact hset k (by simpa using hk) q (by rw [hphys, Nat.add_assoc, Nat.add_comm 1]; exact hq)
    · rw [hkept q fun k hk => ?_, hmemory]
      · have hne : q ≠ p := by
          rintro rfl
          exact hq 0 (by simp) hp
        exact copyTo_out (by omega)
      · rw [hphys, Nat.add_assoc, Nat.add_comm 1]
        exact hq (k + 1) (by simpa using hk)

/-- `copyout` ends well only if the TLB shows every page. -/
theorem copyoutFrom_shown {random : ℕ} (buf : List UInt8) :
    ∀ {s u : State Thread Space} {va n : ℕ}, Usable s → va + buf.length ≤ 2 ^ 31 →
      copyoutFrom cfg random s va n buf = .ok (u, (n + buf.length : ℕ)) →
      ∀ k < buf.length, (physAddr? s (va + k)).isSome := by
  induction buf with
  | nil => simp
  | cons b buf ih =>
    intro s u va n h hva hcopy k hk
    rw [List.length_cons] at hva
    cases hp : physAddr? s va with
    | none =>
      rw [copyoutFrom] at hcopy
      rcases writeMem_miss cfg (b := b) hp random with ⟨e, he⟩ | ⟨w, hw⟩
      · rw [he] at hcopy
        cases hcopy
      · rw [hw] at hcopy
        have := (Prod.mk.inj (Except.ok.inj hcopy)).2
        omega
    | some p =>
      obtain ⟨w, hw, hsame, -⟩ := writeMem_hit (b := b) h (by omega) hp
      cases k with
      | zero => simp [hp]
      | succ k =>
        rw [copyoutFrom, hw] at hcopy
        simp only [serve] at hcopy
        rw [List.length_cons, ← Nat.add_assoc, Nat.add_right_comm] at hcopy
        have hrest := ih (h.of_same hsame) (by omega) hcopy k (by simpa using hk)
        rwa [hsame.physAddr?, Nat.add_assoc, Nat.add_comm 1] at hrest

variable (cfg) in
/-- `copyin` over pages that the TLB shows. -/
theorem copyinFrom_hits (random : ℕ → ℕ) {fuel : ℕ} (hfuel : 0 < fuel) (bytes : List UInt8) :
    ∀ {s : State Thread Space} {va : ℕ} (buf : List UInt8), Usable s →
      va + bytes.length ≤ 2 ^ 31 →
      (∀ k (hk : k < bytes.length), ∃ p, physAddr? s (va + k) = some p ∧
        s.mainMemory p = bytes[k]) →
      ∃ u, copyinFrom (fun random s vaddr => serve cfg random (readMem s vaddr 1)) random fuel s va buf
          bytes.length = .ok (some (u, (buf.length + bytes.length : ℕ), buf ++ bytes)) := by
  induction bytes with
  | nil =>
    intro s va buf h _ _
    exact ⟨s, by simp [copyinFrom]⟩
  | cons b bytes ih =>
    intro s va buf h hva hshown
    rw [List.length_cons] at hva
    obtain ⟨p, hp, hb⟩ := hshown 0 (by simp)
    rw [Nat.add_zero] at hp
    obtain ⟨w, hw, hsame, hmemory⟩ := readMem_hit h (by omega) hp
    obtain ⟨u, hu⟩ := @ih w (va + 1) (buf ++ [b]) (h.of_same hsame) (by omega)
      fun k hk => by
        obtain ⟨q, hq, hbq⟩ := hshown (k + 1) (by simpa using hk)
        refine ⟨q, ?_, hmemory ▸ hbq⟩
        rw [hsame.physAddr?, Nat.add_assoc, Nat.add_comm 1]
        exact hq
    have hread : readUntil (fun random s vaddr => serve cfg random (readMem s vaddr 1)) random va fuel
        s = .ok (some (w, true, b)) := by
      obtain ⟨m, rfl⟩ := Nat.exists_eq_succ_of_ne_zero hfuel.ne'
      rw [readUntil, hw]
      simp only [serve, List.headD_cons]
      rw [hb]
      rfl
    refine ⟨u, ?_⟩
    rw [List.length_cons, copyinFrom, hread]
    simp only [if_true]
    rw [hu]
    simp [Nat.add_assoc, Nat.add_comm 1]

/-- `copyout` writes the buffer and returns its length, and `copyin` of the range gives it back. -/
def CopiesBack (cfg : Config Thread Space) (random : ℕ) (s : State Thread Space) (va : ℕ)
    (buf : List UInt8) : Prop :=
  ∃ u, copyout cfg random s va buf = .ok (u, (buf.length : ℕ)) ∧
    ∀ random' fuel, 0 < fuel → ∃ w, copyin cfg random' fuel u va buf.length =
      .ok (some (w, (buf.length : ℕ), buf))

/-! No page is ever read-only. -/

structure Writable (s : State Thread Space) : Prop where
  ipt : ∀ f, (s.ipt f).readOnly = false
  tlb : ∀ i, (s.tlb i).readOnly = false

omit [DecidableEq Thread] [DecidableEq Space] in
theorem Writable.of_same (h : Writable s) (hipt : ∀ f, (u.ipt f).readOnly = (s.ipt f).readOnly)
    (htlb : ∀ i, (u.tlb i).readOnly = (s.tlb i).readOnly) : Writable u :=
  ⟨fun f => (hipt f).trans (h.ipt f), fun i => (htlb i).trans (h.tlb i)⟩

omit [DecidableEq Thread] [DecidableEq Space] in
theorem setUse_readOnly (s : State Thread Space) (f g : ℕ) (b : Bool) :
    ((setUse s f b).ipt g).readOnly = (s.ipt g).readOnly := by
  by_cases hg : g = f
  · subst hg
    simp [setUse, State.setIPT]
  · simp [setUse, State.setIPT, hg]

omit [DecidableEq Thread] [DecidableEq Space] in
theorem evictFromTLB_readOnly (s : State Thread Space) (f : ℕ) (i : Fin tlbSize) :
    ((evictFromTLB s f).tlb i).readOnly = (s.tlb i).readOnly := by
  unfold evictFromTLB
  induction List.finRange tlbSize generalizing s with
  | nil => rfl
  | cons j l ih =>
    rw [List.foldl_cons, ih]
    unfold evictSlot
    by_cases hij : i = j
    · subst hij
      split_ifs <;> simp [State.invalidate, State.setTLB, State.setIPT]
    · split_ifs <;> simp [State.invalidate, State.setTLB, State.setIPT, hij]

omit [DecidableEq Thread] [DecidableEq Space] in
theorem Writable.save_state (h : Writable s) (hi : Inv cfg s) : Writable (saveState s) := by
  have hsaved := saved_saveState s
  refine h.of_same (fun f => ?_) fun i => ?_
  · obtain ⟨d, hd⟩ := hsaved.entry hi.tlb.once f
    rw [hd]
  · rw [hsaved.tlb, if_pos (List.mem_finRange i)]

theorem Writable.handle {random : ℕ} (h : Writable s) (hi : Inv cfg s)
    (hs : handlePageFault cfg s random = .ok u) : Writable u := by
  have hfill : ∀ {w : State Thread Space} (f : ℕ), Writable w → Writable (fillTLB cfg w f) := by
    intro w f hw
    have hfilled := filled_fillTLB cfg w f
    have hcopy : ∀ g, ((w.copyDirty w.currentTLB).ipt g).readOnly = false := by
      intro g
      rw [copyDirty_ipt]
      split_ifs <;> exact hw.ipt g
    refine ⟨fun g => ?_, fun i => ?_⟩
    · rw [hfilled.ipt]
      split_ifs <;> exact hcopy g
    · by_cases hic : i = w.currentTLB
      · obtain ⟨b, hb⟩ := hfilled.shown
        rw [hic, hb]
        exact hcopy f
      · obtain ⟨b, hb⟩ := hfilled.kept i hic
        rw [hb]
        exact hw.tlb i
  cases handled hs with
  | lockTable v hp hs =>
    obtain rfl := acquireTableLock_ok hs
    exact ⟨h.ipt, h.tlb⟩
  | lockIPT v p hp hs =>
    obtain ⟨-, rfl⟩ := acquireIPTLock_ok hs
    exact ⟨h.ipt, h.tlb⟩
  | found v f hp hf hu => exact hu ▸ h.of_same (fun g => setUse_readOnly s f g true) fun _ => rfl
  | missed v hp hf hu => exact hu ▸ ⟨h.ipt, h.tlb⟩
  | takeFree v f hp hf hu => exact hu ▸ h.of_same (fun g => setUse_readOnly s f g true) fun _ => rfl
  | evict v f list hp hfull hv hu =>
    subst hu
    have hc := cleared_evictFromTLB (s := setUse { s with evictionList := list } f true)
      hi.tlb.once f
    have huse := setUse_readOnly { s with evictionList := list } f (b := true)
    obtain ⟨d, hd, -⟩ := hc.entry
    refine ⟨fun g => ?_, fun i => ?_⟩
    · by_cases hg : g = f
      · subst hg
        exact (congrArg (fun e => e.readOnly) hd).trans ((huse g).trans (h.ipt g))
      · exact (congrArg (fun e => e.readOnly) (hc.ipt g hg)).trans ((huse g).trans (h.ipt g))
    · exact (evictFromTLB_readOnly _ f i).trans (h.tlb i)
  | evicted v f hp hs =>
    obtain ⟨w, hw, rfl⟩ := finishEviction_ok hs
    obtain ⟨a, ha, -⟩ := hi.line_of_valid (hi.frame.victim _ v f hp)
      (hi.loads_pinned (t := s.currentThread) (by simp [hp, Phase.pinned?])
        (by simp [hp, Phase.loads?]))
    obtain ⟨_, _, _, rfl⟩ := (writtenBack cfg hi.swap ha hw).frame
    exact h.of_same (fun g => setUse_readOnly _ _ g true) fun _ => rfl
  | shown v f hp hu => exact hu ▸ hfill f h
  | loaded v f w hp hload hu =>
    obtain ⟨e, hl⟩ := handleIPTMiss_spec hload
    obtain ⟨_, _, _, _, he⟩ := hl.frame
    refine hu ▸ hfill f ⟨fun g => ?_, fun i => ?_⟩
    · by_cases hg : g = f
      · rw [hg, hl.ipt]
      · rw [hl.others g hg]
        exact h.ipt g
    · rw [he]
      exact h.tlb i

theorem Writable.step {a : Action Thread} {out : Option (List UInt8)} (h : Writable s)
    (hi : Inv cfg s) (hs : step cfg s a = .ok (u, out)) : Writable u := by
  have htouch : ∀ {t : State Thread Space} {address size p : ℕ} {w : Bool} {i : Fin tlbSize},
      Translated s t address size w i p → Writable t := by
    intro t address size p w i ht
    rw [ht.tlb]
    refine h.of_same (fun _ => rfl) fun j => ?_
    by_cases hj : j = i
    · subst hj
      simp [State.setTLB]
    · simp [State.setTLB, hj]
  cases a with
  | read address size =>
    obtain ⟨-, -, ⟨-, rfl, -⟩ | ⟨t, p, i, ht, hperform⟩⟩ := access_cases hs
    · exact ⟨h.ipt, h.tlb⟩
    · obtain ⟨rfl, -⟩ := Prod.mk.inj hperform
      exact htouch ht
  | write address bytes =>
    obtain ⟨-, -, ⟨-, rfl, -⟩ | ⟨t, p, i, ht, hperform⟩⟩ := access_cases hs
    · exact ⟨h.ipt, h.tlb⟩
    · obtain ⟨rfl, -⟩ := Prod.mk.inj hperform
      exact ⟨(htouch ht).ipt, (htouch ht).tlb⟩
  | handle random => exact h.handle hi (step_handle hs).1
  | contextSwitch next =>
    obtain ⟨rfl, -⟩ := Prod.mk.inj (Except.ok.inj hs)
    obtain ⟨hsaved, -⟩ := hi.save_state
    have hchanged := (hsaved.change_thread (saved_saveState s).no_slot next).1
    have hw := h.save_state hi
    exact Writable.save_state (s := { saveState s with currentThread := next }) ⟨hw.ipt, hw.tlb⟩
      hchanged

theorem writable_run {first : Thread} {tr : List (PagingStep Thread Space)}
    (h : Execution (Handles (step cfg)) (initial cfg first) tr s) : Writable s := by
  refine (h.invariant (P := fun s => Inv cfg s ∧ Writable s)
    ⟨inv_initial first, fun _ => rfl, fun _ => rfl⟩ fun _ _ _ hP hs => ?_).2
  exact ⟨hP.1.step hs, hP.2.step hP.1 hs⟩

omit [DecidableEq Thread] [DecidableEq Space] in
theorem Inv.usable (h : Inv cfg s) (hw : Writable s) (hu : s.phase s.currentThread = .user) :
    Usable s := by
  refine ⟨hu, fun i hi => ?_, fun i _ => hw.tlb i, h.tlb.once⟩
  exact (h.frame.valid _ (line_eq_some.mp (h.tlb.slot i hi).line).1).2.1

/-- In every state that user programs can reach, `copyout` and back works exactly
if the TLB shows every page of the range. -/
theorem copiesBack_iff {first : Thread} {tr : List (PagingStep Thread Space)} {random va : ℕ}
    {buf : List UInt8} (h : Execution (Handles (step cfg)) (initial cfg first) tr s)
    (huser : s.phase s.currentThread = .user)
    (hrange : va + buf.length ≤ 2 ^ 31) :
    CopiesBack cfg random s va buf ↔
      ∀ k < buf.length, (findTLB s ((va + k) / pageSize)).isSome := by
  have husable := (inv_run h).usable (writable_run h) huser
  have hiff : (∀ k < buf.length, (findTLB s ((va + k) / pageSize)).isSome) ↔
      ∀ k < buf.length, (physAddr? s (va + k)).isSome := by
    simp only [physAddr?, Option.isSome_map]
  rw [hiff]
  constructor
  · rintro ⟨u, hu, -⟩
    rw [copyout] at hu
    exact copyoutFrom_shown (n := 0) buf husable hrange (by simpa using hu)
  · intro hshown
    obtain ⟨u, hu, hsame, hset, -⟩ :=
      copyoutFrom_hits cfg random (n := 0) buf husable hrange hshown
    refine ⟨u, by simpa [copyout] using hu, fun random' fuel hfuel => ?_⟩
    have hback := copyinFrom_hits cfg random' hfuel buf []
      (husable.of_same hsame) hrange fun k hk => by
        obtain ⟨p, hp⟩ := Option.isSome_iff_exists.mp (hshown k hk)
        exact ⟨p, (hsame.physAddr? _).trans hp, hset k hk p hp⟩
    simpa [copyin] using hback

/-- After the page fault of a write its page is in the TLB. -/
theorem copiesBack_after_fault : ∃ tr s,
    Execution (Handles (step bigProcess)) (initial bigProcess false) tr s ∧
    tr.map (fun x => x.event.1) = .write 128 [5] :: List.replicate 6 (.handle 0) ∧
    CopiesBack bigProcess 0 s 130 [7, 8, 9] := by
  obtain ⟨tr, s, hex, hmap, htest⟩ := exists_of_trace (step bigProcess) (initial bigProcess false)
    (.write 128 [5] :: List.replicate 6 (.handle 0))
    (fun r => decide (r.2.phase r.2.currentThread = .user) &&
      (List.range 3).all fun k => (findTLB r.2 ((130 + k) / pageSize)).isSome) (by decide +kernel)
  simp only [Bool.and_eq_true, decide_eq_true_eq, List.all_eq_true, List.mem_range] at htest
  exact ⟨tr, s, hex, hmap, (copiesBack_iff hex htest.1 (by decide)).mpr htest.2⟩

/-- At the start the TLB is empty: the first byte raises a page fault, and `copyout` gives up. -/
theorem copyout_gives_up : ∃ tr s,
    Execution (Handles (step bigProcess)) (initial bigProcess false) tr s ∧
    s.phase s.currentThread = .user ∧ 128 + [(5 : UInt8)].length ≤ bigProgram.numPages * pageSize ∧
    ¬ CopiesBack bigProcess 0 s 128 [5] := by
  refine ⟨[], _, .start, rfl, by decide, ?_⟩
  rintro ⟨u, hu, -⟩
  have husable : Usable (initial bigProcess false) :=
    (show Inv bigProcess (initial bigProcess false) from inv_initial false).usable
      ⟨fun _ => rfl, fun _ => rfl⟩ rfl
  rw [copyout] at hu
  have hshown : (physAddr? (initial bigProcess false) (128 + 0)).isSome :=
    copyoutFrom_shown (n := 0) [5] husable (by decide) (by simpa using hu) 0
      (by decide)
  revert hshown
  decide

end Nachos.Paging
