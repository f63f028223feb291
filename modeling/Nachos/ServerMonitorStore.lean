import Nachos.NamedArrays
import Nachos.ServerLockService

/-! The monitor variables of a lone server, `CREATE_MV`, `GET_MV`, `SET_MV` and `DESTROY_MV`
of `network/server.cc`, as a store of named arrays. -/
namespace Nachos.Network
open Executions SlotTables NamedArrays

/-- The operations of the store, as clients send them. -/
def monitorRequest : Op Name ℤ → Request
  | .create name count initial => .createMV count initial name
  | .get number entry => .getMV number entry
  | .set number entry value => .setMV number entry value
  | .destroy number => .destroyMV number

/-- Entry counts that an array can have, and numbers of machine 0. -/
def MonitorOp : Op Name ℤ → Prop
  | .create _ count _ => count ≤ maxServerEntriesPerMVArray
  | .get number _ | .set number _ _ | .destroy number => decodeMachineIDFromMVNumber number = 0

instance (op : Op Name ℤ) : Decidable (MonitorOp op) := by
  cases op <;> unfold MonitorOp <;> infer_instance

/-- The same for numbers of any machine. -/
def EntryCountAllowed : Op Name ℤ → Prop
  | .create _ count _ => count ≤ maxServerEntriesPerMVArray
  | _ => True

/-- Mailbox 0 of machine 0, alone, with a client and its operation. -/
def monitorHandler (strayTemp : Bool) (s : Server) (call : ClientRequest × Op Name ℤ) :
    Except Fault (Server × List Packet) :=
  boxZero ⟨0, 1, strayTemp⟩ s
    ⟨0, 0, call.1.machineID, call.1.mailboxNumber, .request (monitorRequest call.2)⟩

abbrev MonitorStep := Transition Server ((ClientRequest × Op Name ℤ) × List Packet)

/-- What the clients get. A SET_MV is answered like an operation that failed. -/
def monitorReplies : Replies ℤ ℤ := ⟨id, id, -1, -1⟩

def monitorReply (client : ClientRequest) (data : ℤ) : Packet :=
  ⟨client.machineID, client.mailboxNumber, 0, 0, .reply data⟩

def abstractStore (s : Server) : Store Name ℤ where
  array name := ((checkIfMVExists s name).bind fun i => s.mv? i).map fun e => e.mvEntries
  nameOf n := (s.mv? n).map fun e => e.name

structure MonitorInvariant (s : Server) : Prop where
  quiet : s.necessaryResponses = []
  size : s.mvs = [] ∨ s.mvs.length = maxServerMVArrays
  counted : ∀ i e, s.mv? i = some e → e.numEntries = e.mvEntries.length
  unique : ∀ i j e e', s.mv? i = some e → s.mv? j = some e' → e.name = e'.name → i = j

variable {s t : Server} {client : ClientRequest} {op : Op Name ℤ} {out : List Packet}
  {strayTemp : Bool} {name : Name}

theorem abstractStore_array_iff (h : MonitorInvariant s) {a : List ℤ} :
    (abstractStore s).array name = some a ↔
      ∃ i e, s.mv? i = some e ∧ e.name = name ∧ e.mvEntries = a := by
  simp only [abstractStore, Option.map_eq_some_iff, Option.bind_eq_some_iff]
  constructor
  · rintro ⟨e, ⟨i, hi, he⟩, rfl⟩
    obtain ⟨e', he', hname⟩ := search_some hi
    obtain rfl : e' = e := Option.some.inj (he'.symm.trans he)
    exact ⟨i, e', he, by simpa using hname, rfl⟩
  · rintro ⟨i, e, he, hname, rfl⟩
    cases hs : checkIfMVExists s name with
    | none =>
      have := search_none.mp hs i e he
      simp [hname] at this
    | some i' =>
      obtain ⟨e', he', hname'⟩ := search_some hs
      have hi := h.unique i i' e e' he he' (hname.trans (of_decide_eq_true hname').symm)
      exact ⟨e, ⟨i', rfl, hi ▸ he⟩, rfl⟩

/-- Machine 0 sends the index itself. -/
theorem encodeIndex_zero (i : ℤ) : encodeIndex ⟨0, 1, strayTemp⟩ i = i := by simp [encodeIndex]

theorem decodeIndex_zero (n : ℤ) : decodeIndex ⟨0, 1, strayTemp⟩ n = n := by simp [decodeIndex]

theorem flush_monitorReply (strayTemp : Bool) (client : ClientRequest) (op : Op Name ℤ)
    (hq : s.necessaryResponses = []) (data : ℤ) :
    BoxZero.flush ⟨0, 1, strayTemp⟩ (BoxZero.answer s ⟨0, 0, client.machineID,
      client.mailboxNumber, .request (monitorRequest op)⟩ data) = (s, [monitorReply client data]) :=
  flush_pushResponse hq _ []

/-- A name that no array has gets the first free slot. -/
theorem serverCreateMV_new {count : ℕ} (initial : ℤ) (hname : checkIfMVExists s name = none)
    (hcount : (count : ℤ) ≤ maxServerEntriesPerMVArray) :
    serverCreateMV s name count initial =
      match firstFree (allocate maxServerMVArrays s.mvs) with
      | some i => .ok ({ s with mvs := put (allocate maxServerMVArrays s.mvs) i
                                  ⟨List.replicate count initial, count, name⟩ }, i)
      | none => .ok ({ s with mvs := allocate maxServerMVArrays s.mvs }, -1) := by
  have hsearch : search (allocate maxServerMVArrays s.mvs) (fun e => e.name = name) = none := by
    rw [search_none]
    intro i e he
    rw [live?_allocate] at he
    exact search_none.mp hname i e he
  unfold serverCreateMV createEntry
  simp only [hsearch, not_lt.mpr hcount, if_false, Int.toNat_natCast]
  rw [if_neg (by omega)]
  cases firstFree (allocate maxServerMVArrays s.mvs) <;> rfl

/-- One slot of the table changes: how the invariant and the store change with it. -/
structure SlotChange (s t : Server) (n : ℤ) (c : Option ServerMVEntry) : Prop where
  quiet : t.necessaryResponses = []
  size : t.mvs = [] ∨ t.mvs.length = maxServerMVArrays
  live : ∀ j, t.mv? j = if j = n then c else s.mv? j
  counted : ∀ e, c = some e → e.numEntries = e.mvEntries.length
  fresh : ∀ e, c = some e → ∀ j e', j ≠ n → s.mv? j = some e' → e'.name ≠ e.name

namespace SlotChange
variable {n : ℤ} {c : Option ServerMVEntry}

theorem invariant (h : MonitorInvariant s) (hc : SlotChange s t n c) : MonitorInvariant t := by
  refine ⟨hc.quiet, hc.size, fun i e he => ?_, fun i j e e' he he' hname => ?_⟩
  · rw [hc.live] at he
    split_ifs at he with hi
    · exact hc.counted e he
    · exact h.counted i e he
  · rw [hc.live] at he he'
    split_ifs at he he' with hi hj hj
    · exact hi.trans hj.symm
    · exact absurd hname.symm (hc.fresh e he j e' hj he')
    · exact absurd hname (hc.fresh e' he' i e hi he)
    · exact h.unique i j e e' he he' hname

theorem nameOf (hc : SlotChange s t n c) :
    (abstractStore t).nameOf = Function.update (abstractStore s).nameOf n (c.map fun e => e.name) := by
  funext j
  by_cases hj : j = n <;> simp [abstractStore, hc.live, hj]

/-- The array of the slot's new name. -/
theorem array_new (h : MonitorInvariant s) (hc : SlotChange s t n c) {e : ServerMVEntry}
    (he : c = some e) : (abstractStore t).array e.name = some e.mvEntries :=
  (abstractStore_array_iff (hc.invariant h)).mpr ⟨n, e, by simp [hc.live, he], rfl, rfl⟩

/-- Names that the slot neither had nor gets keep their arrays. -/
theorem array_other (h : MonitorInvariant s) (hc : SlotChange s t n c) {k : Name}
    (hnew : ∀ e, c = some e → e.name ≠ k) (hold : ∀ e, s.mv? n = some e → e.name ≠ k) :
    (abstractStore t).array k = (abstractStore s).array k := by
  ext a
  simp only [abstractStore_array_iff h, abstractStore_array_iff (hc.invariant h), hc.live]
  constructor
  · rintro ⟨i, e, he, hname, ha⟩
    split_ifs at he with hi
    · exact absurd hname (hnew e he)
    · exact ⟨i, e, he, hname, ha⟩
  · rintro ⟨i, e, he, hname, ha⟩
    have hi : i ≠ n := by
      rintro rfl
      exact hold e he hname
    exact ⟨i, e, by simp [hi, he], hname, ha⟩

/-- The name that the slot loses is no longer live. -/
theorem array_lost (h : MonitorInvariant s) (hc : SlotChange s t n c) {e : ServerMVEntry}
    (he : s.mv? n = some e) (hnew : ∀ e', c = some e' → e'.name ≠ e.name) :
    (abstractStore t).array e.name = none := by
  rw [Option.eq_none_iff_forall_ne_some]
  intro a ha
  obtain ⟨i, e', he', hname, -⟩ := (abstractStore_array_iff (hc.invariant h)).mp ha
  rw [hc.live] at he'
  split_ifs at he' with hi
  · exact hnew e' he' hname
  · exact hi (h.unique i n e' e he' he hname)

theorem array_eq_update (h : MonitorInvariant s) (hc : SlotChange s t n c) {e : ServerMVEntry}
    (he : c = some e) (hold : ∀ e', s.mv? n = some e' → e'.name = e.name) :
    (abstractStore t).array =
      Function.update (abstractStore s).array e.name (some e.mvEntries) := by
  funext k
  by_cases hk : k = e.name
  · subst hk
    rw [Function.update_self, hc.array_new h he]
  · rw [Function.update_of_ne hk]
    refine hc.array_other h (fun e' he' hname => hk ?_) fun e' he' hname => hk ?_
    · obtain rfl : e = e' := Option.some.inj (he.symm.trans he')
      exact hname.symm
    · exact hname.symm.trans (hold e' he')

theorem array_eq_erase (h : MonitorInvariant s) (hc : SlotChange s t n none) {e : ServerMVEntry}
    (he : s.mv? n = some e) :
    (abstractStore t).array = Function.update (abstractStore s).array e.name none := by
  funext k
  by_cases hk : k = e.name
  · subst hk
    rw [Function.update_self, hc.array_lost h he (by simp)]
  · rw [Function.update_of_ne hk]
    refine hc.array_other h (by simp) fun e' he' hname => hk ?_
    obtain rfl : e = e' := Option.some.inj (he.symm.trans he')
    exact hname.symm

end SlotChange

/-- One message, as the store answers it. -/
structure MonitorAnswer (s t : Server) (client : ClientRequest) (op : Op Name ℤ)
    (out : List Packet) (reply : Option ℤ) : Prop where
  sent : out = reply.toList.map (monitorReply client)
  answers : Answers monitorReplies maxServerMVArrays (abstractStore s) op reply (abstractStore t)
  invariant : MonitorInvariant t

theorem entry_live (h : MonitorInvariant s) {n : ℤ} {e : ServerMVEntry} (he : s.mv? n = some e)
    (j : ℤ) :
    (abstractStore s).entry n j = if 0 ≤ j then e.mvEntries[j.toNat]? else none := by
  have hname : (abstractStore s).nameOf n = some e.name := by simp [abstractStore, he]
  exact Store.entry_eq hname ((abstractStore_array_iff h).mpr ⟨n, e, he, rfl, rfl⟩)

/-- The index test of the source. -/
theorem entry_none_iff (h : MonitorInvariant s) {n : ℤ} {e : ServerMVEntry}
    (he : s.mv? n = some e) (j : ℤ) :
    (abstractStore s).entry n j = none ↔ j < 0 ∨ j > e.numEntries - 1 := by
  have hcount := h.counted n e he
  rw [entry_live h he]
  by_cases hj : 0 ≤ j
  · simp only [hj, if_true, List.getElem?_eq_none_iff]
    omega
  · simp only [hj, if_false, true_iff]
    omega

theorem entry_dead {n : ℤ} (hn : s.mv? n = none) (j : ℤ) : (abstractStore s).entry n j = none := by
  simp [Store.entry, Store.contents, abstractStore, hn]

theorem known_name {i : ℕ} (hi : checkIfMVExists s name = some i) :
    (abstractStore s).nameOf i = some name := by
  obtain ⟨e, he, hname⟩ := search_some hi
  have hmv : s.mv? i = some e := he
  simpa [abstractStore, hmv] using hname

theorem unknown_name (h : checkIfMVExists s name = none) : (abstractStore s).array name = none := by
  simp [abstractStore, h]

theorem allocate_size (h : MonitorInvariant s) :
    (allocate maxServerMVArrays s.mvs).length = maxServerMVArrays := by
  unfold allocate
  rcases h.size with hs | hs
  · simp [hs]
  · rw [if_neg (by simp [hs, maxServerMVArrays]), hs]

theorem create_slotChange (h : MonitorInvariant s) (hname : checkIfMVExists s name = none) {i : ℕ}
    (hfree : firstFree (allocate maxServerMVArrays s.mvs) = some i) (count : ℕ) (initial : ℤ) :
    SlotChange s { s with mvs := put (allocate maxServerMVArrays s.mvs) i
                            ⟨List.replicate count initial, count, name⟩ } i
      (some ⟨List.replicate count initial, count, name⟩) := by
  refine ⟨h.quiet, .inr (by simp [allocate_size h]), fun j => ?_, ?_, ?_⟩
  · have hlive := live?_put_firstFree hfree ⟨List.replicate count initial, count, name⟩ j
    rwa [live?_allocate] at hlive
  · rintro _ ⟨⟩
    simp
  · rintro _ ⟨⟩ j e' - he' rfl
    have := search_none.mp hname j e' he'
    simp at this

theorem allocate_slotChange (h : MonitorInvariant s) :
    SlotChange s { s with mvs := allocate maxServerMVArrays s.mvs } (-1) none := by
  refine ⟨h.quiet, .inr (allocate_size h), fun j => ?_, by simp, by simp⟩
  have hlive : live? (allocate maxServerMVArrays s.mvs) j = s.mv? j := live?_allocate _ _ _
  split_ifs with hj
  · subst hj
    simp [Server.mv?, live?]
  · exact hlive

theorem allocate_abstractStore (h : MonitorInvariant s) :
    abstractStore { s with mvs := allocate maxServerMVArrays s.mvs } = abstractStore s := by
  have hc := allocate_slotChange h
  have hdead : s.mv? (-1) = none := by simp [Server.mv?, live?]
  ext1
  · funext k
    exact hc.array_other h (by simp) (by simp [hdead])
  · rw [hc.nameOf]
    exact Function.update_eq_self_iff.mpr (by simp [abstractStore, hdead])

theorem create_answer (h : MonitorInvariant s) {count : ℕ} {initial : ℤ}
    (hop : (count : ℤ) ≤ maxServerEntriesPerMVArray) :
    ∃ t out reply, monitorHandler strayTemp s (client, .create name count initial) = .ok (t, out) ∧
      MonitorAnswer s t client (.create name count initial) out reply := by
  cases hname : checkIfMVExists s name with
  | some i =>
    refine ⟨s, [monitorReply client i], some i, ?_, rfl, .known (known_name hname), h⟩
    have hflush := flush_monitorReply strayTemp client (.create name count initial) h.quiet i
    simp only [monitorHandler, boxZero, BoxZero.handle, BoxZero.request, monitorRequest,
      BoxZero.createMV, hname, encodeIndex_zero, Except.map]
    exact congrArg Except.ok hflush
  | none =>
    have hcreate := serverCreateMV_new initial hname hop
    have hrun : ∀ t data, serverCreateMV s name count initial = .ok (t, data) →
        t.necessaryResponses = [] →
        monitorHandler strayTemp s (client, .create name count initial) =
          .ok (t, [monitorReply client data]) := by
      intro t data ht hq
      have hflush := flush_monitorReply strayTemp client (.create name count initial) hq data
      simp only [monitorHandler, boxZero, BoxZero.handle, BoxZero.request, monitorRequest,
        BoxZero.createMV, hname, if_true, ht, encodeIndex_zero]
      exact congrArg Except.ok hflush
    cases hfree : firstFree (allocate maxServerMVArrays s.mvs) with
    | some i =>
      rw [hfree] at hcreate
      have hc := create_slotChange h hname hfree count initial
      refine ⟨_, _, some i, hrun _ _ hcreate h.quiet, rfl, ?_, hc.invariant h⟩
      obtain ⟨hlt, hnone⟩ := firstFree_some hfree
      rw [allocate_size h] at hlt
      rw [live?_allocate] at hnone
      have hdead : s.mv? i = none := hnone
      have hstore : abstractStore { s with
          mvs := put (allocate maxServerMVArrays s.mvs) i
            ⟨List.replicate count initial, count, name⟩ } =
          ⟨Function.update (abstractStore s).array name (some (List.replicate count initial)),
            Function.update (abstractStore s).nameOf i (some name)⟩ :=
        Store.ext (hc.array_eq_update h rfl (by simp [hdead])) hc.nameOf
      rw [hstore]
      exact .created (unknown_name hname) (by simp [abstractStore, hdead])
        (Int.natCast_nonneg i) (by exact_mod_cast hlt)
    | none =>
      rw [hfree] at hcreate
      refine ⟨_, _, some (-1), hrun _ _ hcreate h.quiet, rfl, ?_,
        (allocate_slotChange h).invariant h⟩
      rw [allocate_abstractStore h]
      refine .full (unknown_name hname) fun n h0 hlt => ?_
      have hlive := firstFree_none hfree h0 (by rw [allocate_size h]; exact hlt)
      rw [live?_allocate] at hlive
      simpa [abstractStore, Server.mv?] using hlive

/-- A GET_MV is answered with the value that `serverGetMV` finds. -/
theorem monitorHandler_get (h : MonitorInvariant s) {n j : ℤ}
    (hop : decodeMachineIDFromMVNumber n = 0) :
    monitorHandler strayTemp s (client, .get n j) =
      .ok (s, [monitorReply client (serverGetMV s n j)]) := by
  have hflush := flush_monitorReply strayTemp client (.get n j) h.quiet (serverGetMV s n j)
  simp only [monitorHandler, boxZero, BoxZero.handle, BoxZero.request, monitorRequest,
    BoxZero.getMV, hop, decodeIndex_zero, Except.map]
  exact congrArg Except.ok hflush

theorem get_answer (h : MonitorInvariant s) {n j : ℤ} (hop : decodeMachineIDFromMVNumber n = 0) :
    ∃ t out reply, monitorHandler strayTemp s (client, .get n j) = .ok (t, out) ∧
      MonitorAnswer s t client (.get n j) out reply := by
  refine ⟨s, _, some (serverGetMV s n j), monitorHandler_get h hop, rfl, ?_, h⟩
  unfold serverGetMV
  cases he : s.mv? n with
  | none => exact .unread (entry_dead he j)
  | some e =>
    dsimp only
    split_ifs with hj
    · exact .unread ((entry_none_iff h he j).mpr hj)
    · refine .read ?_
      have hcount := h.counted n e he
      rw [entry_live h he, if_pos (by omega)]
      simp [show j.toNat < e.mvEntries.length by omega]

/-- A table with a live entry is allocated. -/
theorem table_size (h : MonitorInvariant s) {n : ℤ} {e : ServerMVEntry} (he : s.mv? n = some e) :
    s.mvs.length = maxServerMVArrays := by
  refine h.size.resolve_left fun hs => ?_
  simp [Server.mv?, hs] at he

theorem set_slotChange (h : MonitorInvariant s) {n : ℤ} {e : ServerMVEntry}
    (he : s.mv? n = some e) (a : List ℤ) (ha : a.length = e.mvEntries.length) :
    SlotChange s (s.setMV n { e with mvEntries := a }) n (some { e with mvEntries := a }) := by
  refine ⟨h.quiet, .inr (by simpa [Server.setMV] using table_size h he), live?_put he _, ?_, ?_⟩
  · rintro _ ⟨⟩
    simpa [ha] using h.counted n e he
  · rintro _ ⟨⟩ i e' hi he' hname
    exact hi (h.unique i n e' e he' he hname)

/-- A SET_MV is carried out, and answered with -1. -/
theorem monitorHandler_set (h : MonitorInvariant s) {n j v : ℤ}
    (hop : decodeMachineIDFromMVNumber n = 0) :
    monitorHandler strayTemp s (client, .set n j v) =
      .ok (serverSetMV s n j v, [monitorReply client (-1)]) := by
  have hq : (serverSetMV s n j v).necessaryResponses = [] := by
    unfold serverSetMV
    split
    · exact h.quiet
    · split_ifs <;> exact h.quiet
  have hpush : ∀ r, serverSetMV (s.pushResponse r) n j v =
      (serverSetMV s n j v).pushResponse r := by
    intro r
    have hmv : (s.pushResponse r).mv? n = s.mv? n := rfl
    unfold serverSetMV
    rw [hmv]
    split
    · rfl
    · split_ifs <;> rfl
  have hflush := flush_monitorReply strayTemp client (.set n j v) hq (-1)
  simp only [monitorHandler, boxZero, BoxZero.handle, BoxZero.request, monitorRequest,
    BoxZero.setMV, hop, decodeIndex_zero, Except.map, hpush]
  exact congrArg Except.ok hflush

theorem set_answer (h : MonitorInvariant s) {n j v : ℤ}
    (hop : decodeMachineIDFromMVNumber n = 0) :
    ∃ t out reply, monitorHandler strayTemp s (client, .set n j v) = .ok (t, out) ∧
      MonitorAnswer s t client (.set n j v) out reply := by
  refine ⟨_, _, some (-1), monitorHandler_set h hop, ?_⟩
  cases he : s.mv? n with
  | none =>
    have hs : serverSetMV s n j v = s := by simp [serverSetMV, he]
    rw [hs]
    exact ⟨rfl, .unwritten (entry_dead he j), h⟩
  | some e =>
    by_cases hj : j < 0 ∨ j > e.numEntries - 1
    · have hs : serverSetMV s n j v = s := by
        simp only [serverSetMV, he]
        exact if_pos hj
      rw [hs]
      exact ⟨rfl, .unwritten ((entry_none_iff h he j).mpr hj), h⟩
    · have hs : serverSetMV s n j v =
          s.setMV n { e with mvEntries := e.mvEntries.set j.toNat v } := by
        simp only [serverSetMV, he]
        exact if_neg hj
      have hc := set_slotChange h he (e.mvEntries.set j.toNat v) (by simp)
      have hstore : abstractStore (s.setMV n { e with mvEntries := e.mvEntries.set j.toNat v }) =
          ⟨Function.update (abstractStore s).array e.name (some (e.mvEntries.set j.toNat v)),
            (abstractStore s).nameOf⟩ := by
        refine Store.ext (hc.array_eq_update h rfl (by simp [he])) (hc.nameOf.trans ?_)
        exact Function.update_eq_self_iff.mpr (by simp [abstractStore, he])
      have hname : (abstractStore s).nameOf n = some e.name := by simp [abstractStore, he]
      rw [hs]
      refine ⟨rfl, ?_, hc.invariant h⟩
      rw [hstore]
      exact .wrote hname ((abstractStore_array_iff h).mpr ⟨n, e, he, rfl, rfl⟩)
        fun hnone => hj ((entry_none_iff h he j).mp hnone)

theorem destroy_answer (h : MonitorInvariant s) {n : ℤ}
    (hop : decodeMachineIDFromMVNumber n = 0) :
    ∃ t out reply, monitorHandler strayTemp s (client, .destroy n) = .ok (t, out) ∧
      MonitorAnswer s t client (.destroy n) out reply := by
  have hrun : monitorHandler strayTemp s (client, .destroy n) = .ok (serverDestroyMV s n, []) := by
    simp only [monitorHandler, boxZero, BoxZero.handle, BoxZero.request, monitorRequest,
      BoxZero.destroyMV, hop, decodeIndex_zero, Except.map]
    rfl
  refine ⟨_, [], none, hrun, ?_⟩
  cases he : s.mv? n with
  | none =>
    have hs : serverDestroyMV s n = s := by simp [serverDestroyMV, he]
    rw [hs]
    exact ⟨rfl, .nothing (by simp [abstractStore, he]), h⟩
  | some e =>
    have hs : serverDestroyMV s n = s.removeMV n := by simp [serverDestroyMV, he]
    have hc : SlotChange s (s.removeMV n) n none :=
      ⟨h.quiet, .inr (by simpa [Server.removeMV] using table_size h he), live?_clear he, by simp,
        by simp⟩
    have hstore : abstractStore (s.removeMV n) =
        ⟨Function.update (abstractStore s).array e.name none,
          Function.update (abstractStore s).nameOf n none⟩ :=
      Store.ext (hc.array_eq_erase h he) hc.nameOf
    rw [hs]
    refine ⟨rfl, ?_, hc.invariant h⟩
    rw [hstore]
    exact .destroyed (by simp [abstractStore, he])

/-- The spec of the handler: it returns, and answers as the store does. -/
theorem monitorHandler_answer (strayTemp : Bool) (client : ClientRequest) (h : MonitorInvariant s)
    (hop : MonitorOp op) :
    ∃ t out reply, monitorHandler strayTemp s (client, op) = .ok (t, out) ∧
      MonitorAnswer s t client op out reply := by
  cases op with
  | create name count initial => exact create_answer h hop
  | get number entry => exact get_answer h hop
  | set number entry value => exact set_answer h hop
  | destroy number => exact destroy_answer h hop

/-- An operation of another machine goes to mailbox 1. -/
theorem monitorHandler_foreign (strayTemp : Bool) (s : Server) (client : ClientRequest)
    (hcount : EntryCountAllowed op) (hop : ¬ MonitorOp op) :
    monitorHandler strayTemp s (client, op) = .ok (s, [sendMessageWithData client.machineID
      client.mailboxNumber 0 1 (.request (monitorRequest op))]) := by
  cases op with
  | create name count initial => exact absurd hcount hop
  | get number entry =>
    have hm : decodeMachineIDFromMVNumber number ≠ 0 := hop
    simp [monitorHandler, boxZero, BoxZero.handle, BoxZero.request, monitorRequest, BoxZero.getMV,
      hm, BoxZero.toBoxOne, BoxZero.flush, Except.map]
  | set number entry value =>
    have hm : decodeMachineIDFromMVNumber number ≠ 0 := hop
    simp [monitorHandler, boxZero, BoxZero.handle, BoxZero.request, monitorRequest, BoxZero.setMV,
      hm, BoxZero.toBoxOne, BoxZero.flush, Except.map]
  | destroy number =>
    have hm : decodeMachineIDFromMVNumber number ≠ 0 := hop
    simp [monitorHandler, boxZero, BoxZero.handle, BoxZero.request, monitorRequest,
      BoxZero.destroyMV, hm, BoxZero.toBoxOne, BoxZero.flush, Except.map]

/-- The numbers of live arrays are numbers of machine 0. -/
theorem decodeMachineID_live (h : MonitorInvariant s) {n : ℤ} (hn : s.mv? n ≠ none) :
    decodeMachineIDFromMVNumber n = 0 := by
  obtain ⟨e, he⟩ := Option.ne_none_iff_exists'.mp hn
  obtain ⟨h0, hlt⟩ := live?_lt_length he
  rw [table_size h he] at hlt
  exact Int.tdiv_eq_zero_of_lt h0 (by exact_mod_cast hlt)

theorem writes_foreign {n j : ℤ} (hn : decodeMachineIDFromMVNumber n = 0) (hop : ¬ MonitorOp op) :
    writes n j op = none := by
  cases op with
  | set m i v =>
    have hm : m ≠ n := by
      rintro rfl
      exact hop hn
    simp [writes, hm]
  | _ => rfl

theorem MonitorInvariant.initial : MonitorInvariant .initial :=
  ⟨rfl, .inl rfl, by simp [Server.mv?, Server.initial], by simp [Server.mv?, Server.initial]⟩

/-- One step of a run, with the reply that its packets carry. -/
def StepAnswered (x : MonitorStep) (reply : Option ℤ) : Prop :=
  x.event.2 = reply.toList.map (monitorReply x.event.1.1) ∧
    Answers monitorReplies maxServerMVArrays (abstractStore x.before) x.event.1.2 reply
      (abstractStore x.after)

/-- The reply in the packets of a step. -/
def sentReply (out : List Packet) : Option ℤ :=
  out.head?.bind fun p => match p.data with
    | .reply data => some data
    | _ => none

theorem sentReply_map (client : ClientRequest) (reply : Option ℤ) :
    sentReply (reply.toList.map (monitorReply client)) = reply := by
  cases reply <;> rfl

section Runs
variable {tr : List MonitorStep}

theorem monitor_step {e : (ClientRequest × Op Name ℤ) × List Packet} (h : MonitorInvariant s)
    (hs : Handles (monitorHandler strayTemp) s e t ∧ MonitorOp e.1.2) :
    MonitorInvariant t ∧ StepAnswered ⟨s, e, t⟩ (sentReply e.2) := by
  obtain ⟨t', out, reply, hrun, hanswer⟩ := monitorHandler_answer strayTemp e.1.1 h hs.2
  obtain ⟨rfl, hout⟩ := Prod.mk.inj (Except.ok.inj (hrun.symm.trans hs.1))
  have hreply : sentReply e.2 = reply := by
    rw [← hout, hanswer.sent, sentReply_map]
  exact ⟨hanswer.invariant, hreply ▸ ⟨hout ▸ hanswer.sent, hanswer.answers⟩⟩

theorem monitor_stays {e : (ClientRequest × Op Name ℤ) × List Packet}
    (hs : Handles (monitorHandler strayTemp) s e t) (hcount : EntryCountAllowed e.1.2)
    (hop : ¬ MonitorOp e.1.2) : t = s := by
  have hrun := monitorHandler_foreign strayTemp s e.1.1 hcount hop
  exact congrArg Prod.fst (Except.ok.inj (Eq.trans hs.symm hrun))

theorem monitor_kept {e : (ClientRequest × Op Name ℤ) × List Packet} (h : MonitorInvariant s)
    (hs : Handles (monitorHandler strayTemp) s e t ∧ EntryCountAllowed e.1.2) :
    MonitorInvariant t := by
  by_cases hop : MonitorOp e.1.2
  · exact (monitor_step h ⟨hs.1, hop⟩).1
  · exact monitor_stays hs.1 hs.2 hop ▸ h

/-- The run without the operations of other machines. -/
theorem monitor_own (h : Execution (Handles (monitorHandler strayTemp)) .initial tr s)
    (hcount : ∀ x ∈ tr, EntryCountAllowed x.event.1.2) :
    Execution (Handles (monitorHandler strayTemp)) .initial
      (tr.filter fun x => MonitorOp x.event.1.2) s := by
  refine h.filter fun x hx hp => ?_
  have hs := (h.mem (P := fun _ => True) trivial (fun _ _ _ _ _ => trivial) hx).2
  exact monitor_stays hs (hcount x hx) (of_decide_eq_false hp)

/-- The store runs along with the server. -/
theorem monitor_refines (h : Execution (Handles (monitorHandler strayTemp)) .initial tr s)
    (hop : ∀ x ∈ tr, MonitorOp x.event.1.2) :
    Execution (step monitorReplies maxServerMVArrays) (abstractStore .initial)
      (tr.map fun x => ⟨abstractStore x.before, (x.event.1.2, sentReply x.event.2),
        abstractStore x.after⟩) (abstractStore s) :=
  (h.restrict (Q := fun e => MonitorOp e.1.2) hop).map (P := MonitorInvariant)
    (g := fun e => (e.1.2, sentReply e.2)) .initial (fun _ _ _ hi hs => (monitor_step hi hs).1)
    fun _ _ _ hi hs => (monitor_step hi hs).2.2

theorem abstractStore_initial : (abstractStore .initial).Consistent := by
  have hempty : abstractStore .initial = Store.empty := by
    refine Store.ext ?_ ?_ <;> funext k <;>
      simp [abstractStore, Store.empty, Server.mv?, Server.initial, checkIfMVExists, search]
  rw [hempty]
  exact .empty

/-- A valid GET_MV gets the value of the latest SET_MV to that array and entry since the
array was created, or its initial value. -/
theorem get_latest (h : Execution (Handles (monitorHandler strayTemp)) .initial tr s)
    (hcount : ∀ x ∈ tr, EntryCountAllowed x.event.1.2) {pre post rest : List MonitorStep}
    {c x : MonitorStep} {count : ℕ} {initial n j : ℤ} (he : tr = (pre ++ c :: post) ++ x :: rest)
    (hcreate : c.event.1.2 = .create name count initial) (hnew : c.before.mv? n = none)
    (hlive : c.after.mv? n ≠ none) (hkeep : ∀ y ∈ post, y.event.1.2 ≠ .destroy n)
    (hget : x.event.1.2 = .get n j) (h0 : 0 ≤ j) (hj : j < count) :
    x.event.2 = [monitorReply x.event.1.1
      ((post.filterMap fun y => writes n j y.event.1.2).getLast?.getD initial)] := by
  obtain ⟨hbefore, hstep⟩ := h.split he
  have hcount' : ∀ y ∈ pre ++ c :: post, EntryCountAllowed y.event.1.2 := fun y hy =>
    hcount y (he ▸ List.mem_append_left _ hy)
  have hallowed := hbefore.restrict (Q := fun e => EntryCountAllowed e.1.2) hcount'
  have hinv : MonitorInvariant x.before := hallowed.invariant .initial fun _ _ _ => monitor_kept
  have hc := hallowed.mem (P := MonitorInvariant) .initial (fun _ _ _ => monitor_kept)
    (x := c) (by simp)
  have hn := decodeMachineID_live (monitor_kept hc.1 hc.2) hlive
  have hopc : MonitorOp c.event.1.2 := by
    have hallowed := hc.2.2
    rw [hcreate] at hallowed ⊢
    exact hallowed
  have hopx : MonitorOp x.event.1.2 := hget ▸ hn
  have hrefines := monitor_refines (monitor_own hbefore hcount') fun y hy =>
    of_decide_eq_true (List.mem_filter.mp hy).2
  rw [List.filter_append, List.filter_cons_of_pos (by simpa using hopc), List.map_append,
    List.map_cons] at hrefines
  obtain ⟨-, hentry⟩ := latest_write (n := n) hrefines abstractStore_initial j rfl hcreate
    (by simp [abstractStore, hnew]) (by simpa [abstractStore] using hlive) fun _ hy => by
      obtain ⟨y, hpost, rfl⟩ := List.mem_map.mp hy
      exact hkeep y (List.mem_filter.mp hpost).1
  rw [if_pos ⟨h0, hj⟩] at hentry
  obtain ⟨-, hsent, hanswer⟩ := monitor_step hinv ⟨hstep, hopx⟩
  dsimp only at hsent hanswer
  rw [hget] at hanswer
  have hwrites : ((post.filter fun y => MonitorOp y.event.1.2).map fun y =>
      (⟨abstractStore y.before, (y.event.1.2, sentReply y.event.2), abstractStore y.after⟩ :
        StoreStep Name ℤ ℤ)).filterMap (fun y => writes n j y.event.1) =
      post.filterMap fun y => writes n j y.event.1.2 := by
    rw [List.filterMap_map, List.filterMap_filter]
    refine List.filterMap_congr fun y _ => ?_
    by_cases hop : MonitorOp y.event.1.2
    · simp [hop]
    · simp [hop, writes_foreign hn hop]
  rw [hsent, hanswer.get_reply, hentry, hwrites]
  rfl

/-- The monitor variables of a lone server over every sequence of operations: those of its own
numbers are answered by the store, and a GET_MV reads the latest SET_MV; those of other numbers
change nothing. Every operation is carried out. -/
theorem monitor_store (h : Execution (Handles (monitorHandler strayTemp)) .initial tr s)
    (hcount : ∀ x ∈ tr, EntryCountAllowed x.event.1.2) :
    (∀ x ∈ tr, MonitorOp x.event.1.2 → ∃ reply, StepAnswered x reply) ∧
      (∀ x ∈ tr, ¬ MonitorOp x.event.1.2 → x.after = x.before) ∧
      (∀ (pre post rest : List MonitorStep) (c x : MonitorStep) (name : Name) (count : ℕ)
        (initial n j : ℤ), tr = (pre ++ c :: post) ++ x :: rest →
        c.event.1.2 = .create name count initial → c.before.mv? n = none →
        c.after.mv? n ≠ none → (∀ y ∈ post, y.event.1.2 ≠ .destroy n) →
        x.event.1.2 = .get n j → 0 ≤ j → j < count → x.event.2 = [monitorReply x.event.1.1
          ((post.filterMap fun y => writes n j y.event.1.2).getLast?.getD initial)]) ∧
      ∀ client op, EntryCountAllowed op →
        ∃ t out, monitorHandler strayTemp s (client, op) = .ok (t, out) := by
  have hrun := h.restrict (Q := fun e => EntryCountAllowed e.1.2) hcount
  have hmem := fun x hx => hrun.mem (x := x) MonitorInvariant.initial (fun _ _ _ => monitor_kept) hx
  refine ⟨fun x hx hop => ?_, fun x hx hop => ?_,
    fun pre post rest c x name count initial n j he => get_latest h hcount he,
    fun client op ho => ?_⟩
  · exact ⟨_, (monitor_step (hmem x hx).1 ⟨(hmem x hx).2.1, hop⟩).2⟩
  · exact monitor_stays (hmem x hx).2.1 (hmem x hx).2.2 hop
  · by_cases hop : MonitorOp op
    · have hinv := hrun.invariant MonitorInvariant.initial fun _ _ _ => monitor_kept
      obtain ⟨t, out, -, ht, -⟩ := monitorHandler_answer strayTemp client hinv hop
      exact ⟨t, out, ht⟩
    · exact ⟨_, _, monitorHandler_foreign strayTemp s client ho hop⟩

/-- Two arrays; one is written, destroyed and made again in its slot. Between, a client asks for an
array of machine 1. -/
theorem monitor_store_reused : ∃ tr s,
    Execution (Handles (monitorHandler false)) .initial tr s ∧
      tr.map (fun x => sentReply x.event.2) =
        [some 0, some 1, some (-1), none, some 5, some 7, none, some 0, some 9, some (-1)] ∧
      ∀ x ∈ tr, MonitorOp x.event.1.2 → ∃ reply, StepAnswered x reply := by
  obtain ⟨tr, s, h, hmap, htest⟩ := exists_of_trace (monitorHandler false) .initial
    [(⟨1, 0⟩, .create [97] 2 0), (⟨2, 0⟩, .create [98] 1 7), (⟨1, 0⟩, .set 0 1 5),
      (⟨1, 0⟩, .get 501 0), (⟨2, 0⟩, .get 0 1), (⟨1, 0⟩, .get 1 0), (⟨1, 0⟩, .destroy 0),
      (⟨2, 0⟩, .create [99] 2 9), (⟨2, 0⟩, .get 0 1), (⟨1, 0⟩, .get 0 2)]
    (fun r => r.1.map (fun x => sentReply x.event.2) =
      [some 0, some 1, some (-1), none, some 5, some 7, none, some 0, some 9, some (-1)])
    (by decide +kernel)
  have hcount := forall_inputs (Q := fun call : ClientRequest × Op Name ℤ =>
    EntryCountAllowed call.2) hmap (by simp [EntryCountAllowed, maxServerEntriesPerMVArray])
  exact ⟨tr, s, h, of_decide_eq_true htest, (monitor_store h hcount).1⟩

/-- A DESTROY_MV of a number that stands for nothing gets no reply. -/
theorem destroyMV_unanswered :
    monitorHandler false .initial (⟨1, 0⟩, .destroy 7) = .ok (.initial, []) := by
  rfl

end Runs

end Nachos.Network
