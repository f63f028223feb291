import Nachos.ServerMonitorStore
import Nachos.SupermarketThreads

/-! `test/setup.c`: the monitor variables that the programs of the networked supermarket share,
at a lone server. Every program makes them by name when it starts; the variables of the salesmen,
which are made last, and the locks and conditions are left out. -/
namespace Nachos.Networked
open Network Executions SlotTables NamedArrays
open Supermarket (numDepartments numItems)

def numCashiers : ℕ := 3
def numLoaders : ℕ := 5
def numCustomers : ℕ := 30
def numTrolly : ℕ := 30

instance : NeZero numCashiers := ⟨by decide⟩

/-- The globals of `setup.h` that hold the number of a monitor variable. -/
inductive Variable
  | cashierTotals
  | cashierFlags
  | numSalesmenOnBreak
  | numCashiersOnBreak
  | managerDesk
  | customersDone
  | hasTakenItems
  | managerItems (dept : Fin 3)
  | nextCustomerIndex
  | trollyCount
  | nextLoaderIndex
  | currentLoaderInStock
  | waitingForStockRoomCount
  | loaderStatus
  | shelfInventory (dept : Fin 3)
  | total
  | custID
  | privilegedLineCount
  | unprivilegedLineCount
  | privCustomers
  | cashierDesk
  | cashRegister
  | custType
  | cashierStatus
  | nextCashierIndex
  | displacedTrollyCount
  deriving DecidableEq, Repr, Fintype

/-- One call of `CreateMV`. -/
structure Creation where
  number : Variable
  name : String
  entries : ℕ
  initialValue : ℤ

/-- `LOAD_NOT_BUSY`, `CUSTOMER`, `PRIVILEGED_CUSTOMER` and `CASH_NOT_BUSY` -/
def loadNotBusy : ℤ := 33
def customer : ℤ := 27
def privilegedCustomer : ℤ := 26
def cashNotBusy : ℤ := 28

local instance neZero_departments : NeZero (3 : ℕ) := ⟨by decide⟩

/-- The calls of `initManagerArrays`, `initCustomerArrays`, `initLoaderArrays` and
`initCashierArrays`, in this order. -/
def creations : List Creation :=
  [⟨.cashierTotals, "cTotals", numCashiers, 0⟩,
    ⟨.cashierFlags, "cFlags", numCashiers, -1⟩,
    ⟨.numSalesmenOnBreak, "numSOnBreak", numDepartments, 0⟩,
    ⟨.numCashiersOnBreak, "numCashOnBreak", 1, 0⟩,
    ⟨.managerDesk, "managerDesk", 1, 0⟩,
    ⟨.customersDone, "customersDone", 1, 0⟩,
    ⟨.hasTakenItems, "hasTakenItems", 1, 0⟩,
    ⟨.managerItems 0, "managerItems[0]", numItems, 0⟩,
    ⟨.managerItems 1, "managerItems[1]", numItems, 0⟩,
    ⟨.managerItems 2, "managerItems[2]", numItems, 0⟩,
    ⟨.nextCustomerIndex, "nCustIndex", 1, 0⟩,
    ⟨.trollyCount, "trollyCount", 1, numTrolly⟩,
    ⟨.nextLoaderIndex, "nextLoaderIndex", 1, 0⟩,
    ⟨.currentLoaderInStock, "cLInStock", 1, -1⟩,
    ⟨.waitingForStockRoomCount, "waitForStRmCnt", 1, 0⟩,
    ⟨.loaderStatus, "LoaderStatus", numLoaders, loadNotBusy⟩,
    ⟨.shelfInventory 0, "shelfInventory[0]", 10, 10⟩,
    ⟨.shelfInventory 1, "shelfInvetory[1]", 10, 10⟩,
    ⟨.shelfInventory 2, "shelfInventory[2]", 10, 10⟩,
    ⟨.total, "total", numCashiers, 0⟩,
    ⟨.custID, "custID", numCashiers, 0⟩,
    ⟨.privilegedLineCount, "pLineCount", numCashiers, 0⟩,
    ⟨.unprivilegedLineCount, "unpLineCount", numCashiers, 0⟩,
    ⟨.privCustomers, "privCustomers", numCustomers, 0⟩,
    ⟨.cashierDesk, "cashierDesk", numCashiers, 0⟩,
    ⟨.cashRegister, "cashRegister", numCashiers, 0⟩,
    ⟨.custType, "custType", numCashiers, customer⟩,
    ⟨.cashierStatus, "CashierStatus", numCashiers, cashNotBusy⟩,
    ⟨.nextCashierIndex, "nCashierIndex", 1, 0⟩]

def nameOf (name : String) : Name := name.toList.map fun c => UInt8.ofNat c.toNat

def Creation.op (c : Creation) : Op Name ℤ := .create (nameOf c.name) c.entries c.initialValue

/-- A system call of a client: what it returns, and the server then. Without a reply the client
waits for ever. -/
def call (client : ClientRequest) (s : Server) (op : Op Name ℤ) : Option (ℤ × Server) :=
  (monitorHandler false s (client, op)).toOption.bind fun r =>
    (sentReply r.2).map fun reply => (reply, r.1)

/-- `setup`, in a program whose globals are `number` by then. -/
def setup (client : ClientRequest) : List Creation → (Variable → ℤ) → Server →
    Option ((Variable → ℤ) × Server)
  | [], number, s => some (number, s)
  | c :: rest, number, s =>
    (call client s c.op).bind fun r => setup client rest (Function.update number c.number r.1) r.2

/-- The numbers that the calls return. `displacedTrollyCount` is not among them, and stays 0 as a
global. -/
def number : Variable → ℤ
  | .cashierTotals => 0
  | .cashierFlags => 1
  | .numSalesmenOnBreak => 2
  | .numCashiersOnBreak => 3
  | .managerDesk => 4
  | .customersDone => 5
  | .hasTakenItems => 6
  | .managerItems dept => 7 + dept.val
  | .nextCustomerIndex => 10
  | .trollyCount => 11
  | .nextLoaderIndex => 12
  | .currentLoaderInStock => 13
  | .waitingForStockRoomCount => 14
  | .loaderStatus => 15
  | .shelfInventory dept => 16 + dept.val
  | .total => 19
  | .custID => 20
  | .privilegedLineCount => 21
  | .unprivilegedLineCount => 22
  | .privCustomers => 23
  | .cashierDesk => 24
  | .cashRegister => 25
  | .custType => 26
  | .cashierStatus => 27
  | .nextCashierIndex => 28
  | .displacedTrollyCount => 0

/-- The variable of each creation is at its number, under its name. -/
structure Opened (s : Server) : Prop extends MonitorInvariant s where
  made : ∀ c ∈ creations, ∃ e, s.mv? (number c.number) = some e ∧ e.name = nameOf c.name ∧
    e.mvEntries.length = c.entries

variable {s : Server} {client : ClientRequest} {c : Creation} {rest : List Creation}
  {globals : Variable → ℤ}

/-! The programs' calls. -/

theorem call_get (h : MonitorInvariant s) {n j : ℤ} (hn : decodeMachineIDFromMVNumber n = 0) :
    call client s (.get n j) = some (serverGetMV s n j, s) := by
  rw [call, monitorHandler_get h hn]
  rfl

theorem call_set (h : MonitorInvariant s) {n j v : ℤ} (hn : decodeMachineIDFromMVNumber n = 0) :
    call client s (.set n j v) = some (-1, serverSetMV s n j v) := by
  rw [call, monitorHandler_set h hn]
  rfl

/-- A number of another machine: a lone server asks itself at mailbox 1, and does not answer. -/
theorem call_get_foreign {n j : ℤ} (hn : decodeMachineIDFromMVNumber n ≠ 0) :
    call client s (.get n j) = none := by
  have hrun : BoxZero.handle ⟨0, 1, false⟩ s
      ⟨0, 0, client.machineID, client.mailboxNumber, .request (.getMV n j)⟩ =
      .ok (BoxZero.toBoxOne ⟨0, 1, false⟩ s
        ⟨0, 0, client.machineID, client.mailboxNumber, .request (.getMV n j)⟩) := by
    simp [BoxZero.handle, BoxZero.request, BoxZero.getMV, hn]
  simp only [call, monitorHandler, monitorRequest, boxZero, hrun]
  rfl

theorem call_set_foreign {n j v : ℤ} (hn : decodeMachineIDFromMVNumber n ≠ 0) :
    call client s (.set n j v) = none := by
  have hrun : BoxZero.handle ⟨0, 1, false⟩ s
      ⟨0, 0, client.machineID, client.mailboxNumber, .request (.setMV n j v)⟩ =
      .ok (BoxZero.toBoxOne ⟨0, 1, false⟩ s
        ⟨0, 0, client.machineID, client.mailboxNumber, .request (.setMV n j v)⟩) := by
    simp [BoxZero.handle, BoxZero.request, BoxZero.setMV, hn]
  simp only [call, monitorHandler, monitorRequest, boxZero, hrun]
  rfl

theorem number_nonneg (x : Variable) : 0 ≤ number x := by
  cases x <;> simp [number] <;> omega

theorem number_lt (x : Variable) : number x < 29 := by
  cases x <;> simp [number] <;> omega

@[simp] theorem decode_number (x : Variable) : decodeMachineIDFromMVNumber (number x) = 0 := by
  have h0 := number_nonneg x
  have hlt := number_lt x
  unfold decodeMachineIDFromMVNumber maxServerMVArrays
  exact Int.tdiv_eq_zero_of_lt h0 (by omega)

/-- The name of a creation is found at its number. -/
theorem Opened.exists_name (h : Opened s) (hc : c ∈ creations) :
    ∃ i : ℕ, checkIfMVExists s (nameOf c.name) = some i ∧ (i : ℤ) = number c.number := by
  obtain ⟨e, he, hname, -⟩ := h.made c hc
  cases hs : checkIfMVExists s (nameOf c.name) with
  | none =>
    have hnot := search_none.mp hs _ e he
    simp [hname] at hnot
  | some i =>
    obtain ⟨e', he', hname'⟩ := search_some hs
    exact ⟨i, rfl, h.unique i _ e' e he' he ((of_decide_eq_true hname').trans hname.symm)⟩

theorem Opened.call_create (h : Opened s) (hc : c ∈ creations) :
    call client s c.op = some (number c.number, s) := by
  obtain ⟨i, hi, hnumber⟩ := h.exists_name hc
  have hflush := flush_monitorReply false client c.op h.quiet i
  have hrun : monitorHandler false s (client, c.op) = .ok (s, [monitorReply client i]) := by
    simp only [monitorHandler, boxZero, BoxZero.handle, BoxZero.request, monitorRequest,
      Creation.op, BoxZero.createMV, hi, encodeIndex_zero, Except.map]
    exact congrArg Except.ok hflush
  rw [call, hrun, ← hnumber]
  rfl

/-- The numbers that a program gets for the variables it makes or finds. -/
def numbered (made : List Creation) (globals : Variable → ℤ) : Variable → ℤ :=
  made.foldl (fun g c => Function.update g c.number (number c.number)) globals

theorem numbered_eq (made : List Creation) :
    ∀ globals x, numbered made globals x =
      if ∃ c ∈ made, c.number = x then number x else globals x := by
  induction made with
  | nil => simp [numbered]
  | cons c made ih =>
    intro globals x
    rw [numbered, List.foldl_cons]
    refine (ih _ x).trans ?_
    by_cases hx : c.number = x
    · subst hx
      simp
    · simp [hx, Function.update_of_ne (Ne.symm hx)]

theorem numbered_creations : numbered creations (fun _ => 0) = number := by
  funext x
  rw [numbered_eq]
  split_ifs with hx
  · rfl
  · by_contra hne
    revert x
    decide +kernel

/-- A program that starts later gets the same numbers, and changes nothing. -/
theorem Opened.setup (h : Opened s) : setup client creations (fun _ => 0) s = some (number, s) := by
  have hall : ∀ made : List Creation, (∀ c ∈ made, c ∈ creations) → ∀ globals,
      Networked.setup client made globals s = some (numbered made globals, s) := by
    intro made
    induction made with
    | nil => intro _ globals; rfl
    | cons c made ih =>
      intro hmem globals
      rw [Networked.setup, h.call_create (hmem c (by simp))]
      exact ih (fun c' hc' => hmem c' (by simp [hc'])) _
  rw [hall creations (fun _ hc => hc), numbered_creations]

/-! The first program. -/

theorem call_invariant (h : MonitorInvariant s) {op : Op Name ℤ} (hop : MonitorOp op) {reply : ℤ}
    {t : Server} (hcall : call client s op = some (reply, t)) : MonitorInvariant t := by
  obtain ⟨t', out, answer, hrun, hanswer⟩ := monitorHandler_answer false client h hop
  rw [call, hrun] at hcall
  obtain ⟨_, -, hpair⟩ := Option.map_eq_some_iff.mp hcall
  obtain ⟨-, rfl⟩ := Prod.mk.inj hpair
  exact hanswer.invariant

theorem setup_invariant (hall : ∀ c ∈ rest, c.entries ≤ 500) :
    ∀ {globals s}, MonitorInvariant s → ∀ {result}, setup client rest globals s = some result →
      MonitorInvariant result.2 := by
  induction rest with
  | nil =>
    rintro globals s h result hset
    obtain rfl := Option.some.inj hset
    exact h
  | cons c rest ih =>
    intro globals s h result hset
    obtain ⟨⟨reply, t⟩, hcall, hrest⟩ := Option.bind_eq_some_iff.mp hset
    refine ih (fun c' hc' => hall c' (by simp [hc'])) (call_invariant h ?_ hcall) hrest
    have hle := hall c (by simp)
    change (c.entries : ℤ) ≤ maxServerEntriesPerMVArray
    unfold maxServerEntriesPerMVArray
    omega

/-- The server after the first program has started. -/
def openingServer : Server :=
  ((setup ⟨1, 0⟩ creations (fun _ => 0) .initial).map Prod.snd).getD .initial

/-- Each creation has got its number, and every entry its value. -/
theorem setup_initial :
    (setup ⟨1, 0⟩ creations (fun _ => 0) .initial).any (fun r =>
      creations.all fun c => (r.2.mv? (number c.number)).any fun e =>
        e = ⟨List.replicate c.entries c.initialValue, c.entries, nameOf c.name⟩) = true := by
  decide +kernel

theorem openingServer_made (hc : c ∈ creations) :
    openingServer.mv? (number c.number) =
      some ⟨List.replicate c.entries c.initialValue, c.entries, nameOf c.name⟩ := by
  obtain ⟨r, hr, htest⟩ := (Option.any_eq_true _ _).mp setup_initial
  have hserver : openingServer = r.2 := by rw [openingServer, hr]; rfl
  obtain ⟨e, he, heq⟩ := (Option.any_eq_true _ _).mp (List.all_eq_true.mp htest c hc)
  rw [hserver, he, of_decide_eq_true heq]

theorem opened_openingServer : Opened openingServer where
  toMonitorInvariant := by
    obtain ⟨r, hr, -⟩ := (Option.any_eq_true _ _).mp setup_initial
    have hserver : openingServer = r.2 := by rw [openingServer, hr]; rfl
    rw [hserver]
    exact setup_invariant (by decide) .initial hr
  made := fun c hc => ⟨_, openingServer_made hc, rfl, by simp⟩

/-! Reading and writing the entries. -/

/-- The entries that a variable has. -/
def entries (x : Variable) : ℕ := ((creations.find? fun c => c.number = x).map Creation.entries).getD 0

theorem Opened.made_entries (h : Opened s) {x : Variable} (hx : x ≠ .displacedTrollyCount) :
    ∃ e, s.mv? (number x) = some e ∧ e.mvEntries.length = entries x := by
  have hfind : ∃ c ∈ creations, c.number = x ∧ entries x = c.entries := by
    cases hf : creations.find? (fun c => c.number = x) with
    | none =>
      have hnone := List.find?_eq_none.mp hf
      revert x
      decide +kernel
    | some c =>
      exact ⟨c, List.mem_of_find?_eq_some hf, by simpa using List.find?_some hf, by simp [entries, hf]⟩
  obtain ⟨c, hc, rfl, hentries⟩ := hfind
  obtain ⟨e, he, -, hlen⟩ := h.made c hc
  exact ⟨e, he, hlen.trans hentries.symm⟩

/-- A written entry is read back, and the others keep what they have. -/
theorem serverGetMV_serverSetMV (h : MonitorInvariant s) {n : ℤ} {e : ServerMVEntry}
    (he : s.mv? n = some e) {i : ℤ} (h0 : 0 ≤ i) (hi : i < e.mvEntries.length) (v m j : ℤ) :
    serverGetMV (serverSetMV s n i v) m j = if m = n ∧ j = i then v else serverGetMV s m j := by
  have hcount := h.counted n e he
  have hset : serverSetMV s n i v = s.setMV n { e with mvEntries := e.mvEntries.set i.toNat v } := by
    simp only [serverSetMV, he]
    exact if_neg (by omega)
  have hlive : (s.setMV n { e with mvEntries := e.mvEntries.set i.toNat v }).mv? m =
      if m = n then some { e with mvEntries := e.mvEntries.set i.toNat v } else s.mv? m :=
    live?_put he _ m
  rw [hset, serverGetMV, hlive]
  by_cases hm : m = n
  · subst hm
    rw [if_pos rfl]
    simp only [serverGetMV, he, true_and]
    by_cases hj : j < 0 ∨ j > e.numEntries - 1
    · rw [if_pos hj, if_neg (by omega), if_pos hj]
    · rw [if_neg hj, if_neg hj]
      by_cases hji : j = i
      · subst hji
        rw [if_pos rfl]
        simp [show j.toNat < e.mvEntries.length by omega]
      · rw [if_neg hji, List.getD_eq_getElem?_getD, List.getD_eq_getElem?_getD,
          List.getElem?_set_ne (by omega)]
  · rw [if_neg hm, if_neg (fun hc => hm hc.1)]
    rfl

/-- A write leaves the other entries alone, also where it finds no array or no entry. -/
theorem serverGetMV_set_of_ne (h : MonitorInvariant s) {n i m j : ℤ} (hne : m ≠ n ∨ j ≠ i) (v : ℤ) :
    serverGetMV (serverSetMV s n i v) m j = serverGetMV s m j := by
  cases he : s.mv? n with
  | none => simp [serverSetMV, he]
  | some e =>
    by_cases hi : i < 0 ∨ i > e.numEntries - 1
    · have hs : serverSetMV s n i v = s := by
        simp only [serverSetMV, he]
        exact if_pos hi
      rw [hs]
    · have hcount := h.counted n e he
      rw [serverGetMV_serverSetMV h he (by omega) (by omega), if_neg (by tauto)]

theorem Opened.set (h : Opened s) (n i v : ℤ) : Opened (serverSetMV s n i v) := by
  cases he : s.mv? n with
  | none =>
    have hs : serverSetMV s n i v = s := by simp [serverSetMV, he]
    rwa [hs]
  | some e =>
    by_cases hi : i < 0 ∨ i > e.numEntries - 1
    · have hs : serverSetMV s n i v = s := by
        simp only [serverSetMV, he]
        exact if_pos hi
      rwa [hs]
    · have hs : serverSetMV s n i v =
          s.setMV n { e with mvEntries := e.mvEntries.set i.toNat v } := by
        simp only [serverSetMV, he]
        exact if_neg hi
      have hc := set_slotChange h.toMonitorInvariant he (e.mvEntries.set i.toNat v) (by simp)
      rw [hs]
      refine ⟨hc.invariant h.toMonitorInvariant, fun c hmem => ?_⟩
      obtain ⟨e', he', hname, hlen⟩ := h.made c hmem
      rw [hc.live]
      split_ifs with hn
      · rw [hn] at he'
        obtain rfl := Option.some.inj (he.symm.trans he')
        exact ⟨_, rfl, hname, by simpa using hlen⟩
      · exact ⟨e', he', hname, hlen⟩

/-- A server with the variables of the supermarket. -/
structure Market where
  server : Server
  opened : Opened server

/-- As the supermarket opens. -/
def openingMarket : Market := ⟨openingServer, opened_openingServer⟩

namespace Market
variable (m : Market) {x y : Variable} {i j : ℤ}

/-- `GetMV(x, i)` -/
def get (x : Variable) (i : ℤ) : ℤ := serverGetMV m.server (number x) i

/-- `SetMV(x, i, v)` -/
def set (x : Variable) (i v : ℤ) : Market :=
  ⟨serverSetMV m.server (number x) i v, m.opened.set _ _ _⟩

/-- What the calls of the programs do. -/
theorem call_get : call client m.server (.get (number x) i) = some (m.get x i, m.server) :=
  Networked.call_get m.opened.toMonitorInvariant (decode_number x)

theorem call_set (v : ℤ) :
    call client m.server (.set (number x) i v) = some (-1, (m.set x i v).server) :=
  Networked.call_set m.opened.toMonitorInvariant (decode_number x)

/-- The index is one of the variable's. -/
def InRange (x : Variable) (i : ℤ) : Prop := x ≠ .displacedTrollyCount ∧ 0 ≤ i ∧ i < entries x

instance (x : Variable) (i : ℤ) : Decidable (InRange x i) :=
  inferInstanceAs (Decidable (_ ∧ _ ∧ _))

theorem get_set_if (hi : InRange x i) (v : ℤ) (y : Variable) (j : ℤ) :
    (m.set x i v).get y j = if number y = number x ∧ j = i then v else m.get y j := by
  obtain ⟨e, he, hlen⟩ := m.opened.made_entries hi.1
  exact serverGetMV_serverSetMV m.opened.toMonitorInvariant he hi.2.1 (hlen ▸ hi.2.2) v _ _

theorem get_set (hi : InRange x i) (v : ℤ) : (m.set x i v).get x i = v := by
  rw [get_set_if m hi, if_pos ⟨rfl, rfl⟩]

theorem get_set_of_ne (hi : InRange x i) (v : ℤ) (hne : number y ≠ number x ∨ j ≠ i) :
    (m.set x i v).get y j = m.get y j := by
  rw [get_set_if m hi, if_neg (by tauto)]

/-- Outside of its array a call writes nothing. -/
theorem set_of_not_inRange (hx : x ≠ .displacedTrollyCount) (hi : i < 0 ∨ (entries x : ℤ) ≤ i)
    (v : ℤ) : m.set x i v = m := by
  obtain ⟨e, he, hlen⟩ := m.opened.made_entries hx
  have hcount := m.opened.counted _ e he
  have hs : serverSetMV m.server (number x) i v = m.server := by
    simp only [serverSetMV, he]
    exact if_pos (by omega)
  simp only [set, hs]

/-- What the variables begin with. -/
theorem openingMarket_get (hc : c ∈ creations) (hi : 0 ≤ i ∧ i < c.entries) :
    openingMarket.get c.number i = c.initialValue := by
  have hmade := openingServer_made hc
  simp only [get, openingMarket, serverGetMV, hmade]
  rw [if_neg (by omega), List.getD_eq_getElem?_getD, List.getElem?_replicate, if_pos (by omega)]
  rfl

/-! Calls with a number that a program has computed. -/

/-- `GetMV(n, i)` -/
def getMV (n i : ℤ) : Option ℤ :=
  if decodeMachineIDFromMVNumber n = 0 then some (serverGetMV m.server n i) else none

/-- `SetMV(n, i, v)` -/
def setMV (n i v : ℤ) : Option Market :=
  if decodeMachineIDFromMVNumber n = 0 then some ⟨serverSetMV m.server n i v, m.opened.set n i v⟩
  else none

theorem call_getMV (n i : ℤ) : (call client m.server (.get n i)).map Prod.fst = m.getMV n i := by
  unfold getMV
  split_ifs with hn
  · rw [Networked.call_get m.opened.toMonitorInvariant hn]
    rfl
  · rw [call_get_foreign hn]
    rfl

theorem call_setMV (n i v : ℤ) :
    (call client m.server (.set n i v)).map Prod.snd = (m.setMV n i v).map server := by
  unfold setMV
  split_ifs with hn
  · rw [Networked.call_set m.opened.toMonitorInvariant hn]
    rfl
  · rw [call_set_foreign hn]
    rfl

@[simp] theorem getMV_number : m.getMV (number x) i = some (m.get x i) := if_pos (decode_number x)

@[simp] theorem setMV_number (v : ℤ) : m.setMV (number x) i v = some (m.set x i v) :=
  if_pos (decode_number x)

theorem get_setMV_of_ne {n v : ℤ} {t : Market} (h : m.setMV n i v = some t)
    (hne : number y ≠ n ∨ j ≠ i) : t.get y j = m.get y j := by
  unfold setMV at h
  split_ifs at h with hn
  obtain rfl := Option.some.inj h
  exact serverGetMV_set_of_ne m.opened.toMonitorInvariant hne v

end Market

end Nachos.Networked
