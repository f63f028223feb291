import Nachos.TieBreakSafety
import Nachos.ServerCreateMoves

/-! The servers' creates of one name are a run of the tie break: every action of the
network is a step of it, or concerns other names only. -/
namespace Nachos.Network
open SlotTables Executions BoxOne TieBreak

variable {S : Setting} {k : StructureType × Name} {g : System} {s t : Server} {p : Packet}
  {out : List Packet} {j : ℤ} {key : ℤ → ℕ → StructureType × Name} {next : ℤ → ℕ}

def Setting.servers (S : Setting) : Finset ℤ :=
  (Finset.range S.totalNumServers).image fun i : ℕ => (i : ℤ)

theorem Setting.mem_servers {i : ℤ} : i ∈ S.servers ↔ S.IsServer i := by
  simp only [Setting.servers, Setting.IsServer, Finset.mem_image, Finset.mem_range]
  constructor
  · rintro ⟨n, hn, rfl⟩
    omega
  · rintro ⟨h0, hlt⟩
    exact ⟨i.toNat, by omega, by omega⟩

theorem Setting.card_servers : S.servers.card = S.totalNumServers := by
  rw [Setting.servers, Finset.card_image_of_injective _ Nat.cast_injective, Finset.card_range]

/-- What a message means for the name; answers do not say what they are about. -/
def decode (k : StructureType × Name) : Message → Option Msg
  | .doYouHaveName type id name => if (type, name) = k then some (.ask id) else none
  | .haveName _ id => some (.answer true id)
  | .doNotHaveName _ id => some (.answer false id)
  | _ => none

def OnChannel (i j : ℤ) (p : Packet) : Prop :=
  p.fromMachine = i ∧ p.toMachine = j ∧ p.fromMailbox = 1 ∧ p.toMailbox = 1

instance (i j : ℤ) (p : Packet) : Decidable (OnChannel i j p) :=
  inferInstanceAs (Decidable (_ ∧ _))

def onChannel (k : StructureType × Name) (i j : ℤ) (p : Packet) : Option Msg :=
  if OnChannel i j p then decode k p.data else none

theorem onChannel_silent (h : decode k p.data = none) (x y : ℤ) : onChannel k x y p = none := by
  rw [onChannel, h, ite_self]

def channel (k : StructureType × Name) (net : List Packet) (i j : ℤ) : List Msg :=
  net.filterMap (onChannel k i j)

def pendOf (S : Setting) (j : ℤ) (pc : PendingCreate) : Pend ℤ :=
  ⟨pc.ID, S.servers.filter fun i => i ≠ j ∧ pc.responseTracker i = true, pc.numResponses,
    pc.serverResponseQueue.map fun r => (r.replyMachine, r.replyMessageID)⟩

def Server.Holds (s : Server) (k : StructureType × Name) : Prop := checkIfExists s k.1 k.2 ≠ none

/-- The state of the tie break for one name. -/
def tieBreak (S : Setting) (k : StructureType × Name) (g : System) : State ℤ where
  holds i := (g.server i).Holds k
  pend i := ((g.server i).pending? k).map (pendOf S i)
  next i := (g.server i).nextQueryID
  chan := channel k g.net

/-- What server `j` sends to the others about the name. -/
def outbox (S : Setting) (k : StructureType × Name) (out : List Packet) (j : ℤ) : ℤ → List Msg :=
  fun y => channel k (out.filter fun p => S.Served p) j y

theorem channel_append (net net' : List Packet) (i j : ℤ) :
    channel k (net ++ net') i j = channel k net i j ++ channel k net' i j :=
  List.filterMap_append

/-- A message that says nothing about the name. -/
theorem channel_erase_silent (net : List Packet) (h : ∀ x y, onChannel k x y p = none) :
    channel k (net.erase p) = channel k net := by
  funext x y
  by_cases hp : p ∈ net
  · obtain ⟨l₁, l₂, -, hnet, herase⟩ := List.exists_erase_eq hp
    rw [hnet] at herase ⊢
    rw [herase, channel, channel, List.filterMap_append, List.filterMap_append,
      List.filterMap_cons_none (h x y)]
  · rw [List.erase_of_not_mem hp]

/-- The oldest message of its channel. -/
theorem channel_erase_head (hord : S.ordered = true) {net : List Packet} (hen : S.Enabled net p)
    (hp : BetweenServers S p) {m : Msg} (hm : decode k p.data = some m) :
    ∃ rest, channel k net p.fromMachine p.toMachine = m :: rest ∧
      channel k (net.erase p) = drop (channel k net) p.fromMachine p.toMachine := by
  obtain ⟨l₁, l₂, hnot, hnet, herase⟩ := List.exists_erase_eq hen.1
  have htake : net.takeWhile (· ≠ p) = l₁ := by
    rw [hnet, List.takeWhile_append_of_pos (by
      intro q hq
      refine decide_eq_true fun he => hnot ?_
      exact he ▸ hq)]
    simp
  have hl₁ : l₁.filterMap (onChannel k p.fromMachine p.toMachine) = [] := by
    rw [List.filterMap_eq_nil_iff]
    intro q hq
    have := hen.2 hord q (htake ▸ hq)
    rw [onChannel, if_neg]
    rintro ⟨h1, h2, h3, h4⟩
    exact this ⟨h1, h2, hp.server, h3, hp.fromMailbox, h4, hp.toMailbox⟩
  have hon : ∀ x y, onChannel k x y p =
      if x = p.fromMachine ∧ y = p.toMachine then some m else none := by
    intro x y
    unfold onChannel OnChannel
    simp only [hp.fromMailbox, hp.toMailbox, and_true, hm, @eq_comm _ p.fromMachine x,
      @eq_comm _ p.toMachine y]
  refine ⟨l₂.filterMap (onChannel k p.fromMachine p.toMachine), ?_, ?_⟩
  · rw [channel, hnet, List.filterMap_append, hl₁, List.nil_append,
      List.filterMap_cons_some (by rw [hon, if_pos ⟨rfl, rfl⟩])]
  · funext x y
    unfold drop
    rw [channel, channel, herase, List.filterMap_append, hnet, List.filterMap_append]
    by_cases h : x = p.fromMachine ∧ y = p.toMachine
    · obtain ⟨rfl, rfl⟩ := h
      rw [if_pos ⟨rfl, rfl⟩, hl₁, List.filterMap_cons_some (by rw [hon, if_pos ⟨rfl, rfl⟩])]
      rfl
    · rw [if_neg h, List.filterMap_cons_none (by rw [hon, if_neg h])]

/-- The network after server `j` has handled the message. -/
theorem channel_post (net : List Packet) (hout : ∀ q ∈ out, q.fromMachine = j ∨
      decode k q.data = none) :
    channel k (S.post (net.erase p) out) = send (channel k (net.erase p)) j (outbox S k out j) := by
  funext x y
  unfold Setting.post
  rw [channel_append, send]
  congr 1
  by_cases hx : x = j
  · rw [if_pos hx, hx]
    rfl
  · rw [if_neg hx]
    refine List.filterMap_eq_nil_iff.mpr fun q hq => ?_
    rcases hout q (List.mem_of_mem_filter hq) with h | h
    · rw [onChannel, if_neg]
      rintro ⟨h1, -⟩
      exact hx (h1.symm.trans h)
    · exact onChannel_silent h x y

theorem outbox_silent (hout : ∀ q ∈ out, S.Served q → decode k q.data = none) :
    outbox S k out j = fun _ => [] := by
  funext y
  refine List.filterMap_eq_nil_iff.mpr fun q hq => ?_
  obtain ⟨hq, hserved⟩ := List.mem_filter.mp hq
  exact onChannel_silent (hout q hq (by simpa using hserved)) j y

/-- One answer, back to the asker. -/
theorem outbox_answer (hN : 2 ≤ S.totalNumServers) (hp : BetweenServers S p)
    {data : Message} {m : Msg} (hm : decode k data = some m) :
    outbox S k [respondOnceToServer (S.config j) p data] j = only p.fromMachine m := by
  have hserved : S.Served (respondOnceToServer (S.config j) p data) :=
    ⟨hp.server, Or.inr ⟨hp.fromMailbox, by omega⟩⟩
  funext y
  unfold outbox only
  rw [List.filter_cons_of_pos (by simpa using hserved), List.filter_nil]
  simp only [channel, List.filterMap_cons, List.filterMap_nil, onChannel, OnChannel,
    respondOnceToServer, hp.fromMailbox, hp.toMailbox, Setting.config_myMachineID, hm, and_true,
    true_and, @eq_comm _ p.fromMachine y]
  split_ifs <;> rfl

/-- The state of the tie break after an action of server `j`. -/
theorem tieBreak_update {net : List Packet} :
    tieBreak S k ⟨Function.update g.server j t, net⟩ =
      { holds := fun i => if i = j then t.Holds k else (g.server i).Holds k
        pend := Function.update (tieBreak S k g).pend j ((t.pending? k).map (pendOf S j))
        next := Function.update (tieBreak S k g).next j t.nextQueryID
        chan := channel k net } := by
  ext i
  · by_cases hi : i = j
    · subst hi
      simp [tieBreak]
    · simp [tieBreak, hi]
  · by_cases hi : i = j
    · subst hi
      simp [tieBreak]
    · simp [tieBreak, hi]
  · by_cases hi : i = j
    · subst hi
      simp [tieBreak]
    · simp [tieBreak, hi]
  · rfl

/-- A server that keeps its objects of the name. -/
theorem tieBreak_update_of_holds {net : List Packet} (hh : t.Holds k ↔ (g.server j).Holds k) :
    tieBreak S k ⟨Function.update g.server j t, net⟩ =
      { holds := (tieBreak S k g).holds
        pend := Function.update (tieBreak S k g).pend j ((t.pending? k).map (pendOf S j))
        next := Function.update (tieBreak S k g).next j t.nextQueryID
        chan := channel k net } := by
  rw [tieBreak_update]
  congr 1
  funext i
  by_cases hi : i = j
  · subst hi
    rw [if_pos rfl]
    exact propext hh
  · rw [if_neg hi]
    rfl

theorem pend_update_self : Function.update (tieBreak S k g).pend j
    (((g.server j).pending? k).map (pendOf S j)) = (tieBreak S k g).pend :=
  Function.update_eq_self j _

theorem next_update_self :
    Function.update (tieBreak S k g).next j (g.server j).nextQueryID = (tieBreak S k g).next :=
  Function.update_eq_self j _

/-! The pending create of the name after each operation on the list. -/

theorem pending?_modify {f : PendingCreate → PendingCreate} (hf : ∀ pc, (f pc).key = pc.key)
    {n : ℕ} (ht : t.pendingCreates = s.pendingCreates.map fun pc => if pc.ID = n then f pc else pc) :
    t.pending? k = (s.pending? k).map fun pc => if pc.ID = n then f pc else pc := by
  unfold Server.pending?
  rw [ht, List.find?_map]
  congr 2
  funext pc
  by_cases hid : pc.ID = n <;> simp [hid, hf]

/-- Updates that the tie break does not see, or that concern another name. -/
theorem pending?_modify_silent {f : PendingCreate → PendingCreate}
    (hf : ∀ pc, (f pc).key = pc.key) {id : ℕ}
    (ht : t.pendingCreates = s.pendingCreates.map fun pc => if pc.ID = id then f pc else pc)
    (h : ∀ pc, s.pending? k = some pc → pc.ID = id → pendOf S j (f pc) = pendOf S j pc) :
    (t.pending? k).map (pendOf S j) = (s.pending? k).map (pendOf S j) := by
  rw [pending?_modify hf ht]
  cases hpc : s.pending? k with
  | none => rfl
  | some pc =>
    by_cases hid : pc.ID = id
    · simp [hid, h pc hpc hid]
    · simp [hid]

theorem pending?_modify_other (hs : Registered S key next j s) {pc : PendingCreate}
    (hpc : pc ∈ s.pendingCreates) (hk : pc.key ≠ k) (f : PendingCreate → PendingCreate) :
    (s.pending? k).map (fun x => if x.ID = pc.ID then f x else x) = s.pending? k := by
  cases hf : s.pending? k with
  | none => rfl
  | some x =>
    obtain ⟨hxm, hxk⟩ := (Server.pending?_iff hs.distinct).mp hf
    have hne : x.ID ≠ pc.ID := fun he => hk (hs.eq_of_id hxm hpc he ▸ hxk)
    rw [Option.map_some, if_neg hne]

theorem pendOf_postpone (pc : PendingCreate) (a b : ℤ) (id : ℕ) :
    pendOf S j { pc with serverResponseQueue := pc.serverResponseQueue ++ [⟨a, b, id⟩] } =
      { pendOf S j pc with postponed := (pendOf S j pc).postponed ++ [(a, id)] } := by
  simp [pendOf]

theorem pendOf_count (pc : PendingCreate) {a : ℤ} (ha : S.IsServer a) (haj : a ≠ j) :
    pendOf S j (countResponse pc a) =
      { pendOf S j pc with
        heard := insert a (pendOf S j pc).heard
        count := (pendOf S j pc).count + 1 } := by
  unfold pendOf countResponse
  congr 1
  ext i
  by_cases hi : i = a
  · subst hi
    simp [Setting.mem_servers, ha, haj]
  · simp [hi]

theorem mem_removePending (hs : Registered S key next j s) {pc : PendingCreate}
    (hpc : pc ∈ s.pendingCreates) {x : PendingCreate} :
    x ∈ (removePending s pc.ID).pendingCreates ↔ x ∈ s.pendingCreates ∧ x ≠ pc := by
  obtain ⟨a, l₁, l₂, -, hid, hl, he⟩ := List.exists_of_eraseP hpc
    (p := fun x => decide (x.ID = pc.ID)) (by simp)
  have hnd : (s.pendingCreates.map PendingCreate.key).Nodup := hs.distinct
  obtain rfl : a = pc :=
    hs.eq_of_id (by rw [hl]; simp) hpc (by simpa using hid)
  change x ∈ List.eraseP _ s.pendingCreates ↔ _
  rw [he, hl]
  rw [hl, List.map_append, List.map_cons, List.nodup_append, List.nodup_cons] at hnd
  obtain ⟨-, ⟨h2, -⟩, hdisj⟩ := hnd
  constructor
  · intro hx
    refine ⟨by rcases List.mem_append.mp hx with h | h <;> simp [h], ?_⟩
    rintro rfl
    rcases List.mem_append.mp hx with hx | hx
    · exact hdisj _ (List.mem_map_of_mem hx) _ (by simp) rfl
    · exact h2 (List.mem_map_of_mem hx)
  · rintro ⟨hx, hne⟩
    simpa [hne] using hx

theorem pending?_remove (hs : Registered S key next j s) {pc : PendingCreate}
    (hpc : pc ∈ s.pendingCreates) :
    (removePending s pc.ID).pending? k = if pc.key = k then none else s.pending? k := by
  have hd : (removePending s pc.ID).DistinctPending :=
    hs.distinct.sublist ((removePending_sublist s pc.ID).map _)
  by_cases hk : pc.key = k
  · rw [if_pos hk]
    refine Server.pending?_eq_none.mpr fun x hx he => ?_
    obtain ⟨hxm, hne⟩ := (mem_removePending hs hpc).mp hx
    exact hne (List.inj_on_of_nodup_map hs.distinct hxm hpc (he.trans hk.symm))
  · rw [if_neg hk]
    ext x
    rw [Server.pending?_iff hd, Server.pending?_iff hs.distinct,
      mem_removePending hs hpc]
    constructor
    · rintro ⟨⟨hx, -⟩, he⟩
      exact ⟨hx, he⟩
    · rintro ⟨hx, he⟩
      exact ⟨⟨hx, fun h => hk (h ▸ he)⟩, he⟩

/-! One action of the network. -/

/-- Server `p.toMachine` postpones its answer to the query for the name. -/
def Postpones (k : StructureType × Name) (g : System) (p : Packet) : Prop :=
  (∃ id, p.data = .doYouHaveName k.1 id k.2) ∧ ¬ (g.server p.toMachine).Holds k ∧
    ∃ pc, (g.server p.toMachine).pending? k = some pc ∧
      (pc.responseTracker p.fromMachine = true ∨ p.toMachine < p.fromMachine)

def EventOf (k : StructureType × Name) (g : System) (p : Packet) (t : Server) :
    Event ℤ → Prop
  | .other => True
  | .postpone a b => a = p.fromMachine ∧ b = p.toMachine ∧ Postpones k g p
  | .complete b created => b = p.toMachine ∧ created = t.Holds k ∧ k.1 ≠ .mv ∧
    ∃ id, t = removePending (createObject (g.server p.toMachine) k).1 id

/-- A query about another name has an id of its own. -/
theorem pend_id_ne (hg : Registry S key g) {y : ℤ} {id : ℕ} (hk : key y id ≠ k) {q : Pend ℤ}
    (hq : (tieBreak S k g).pend y = some q) : q.id ≠ id := by
  obtain ⟨pc, hpc, rfl⟩ := Option.map_eq_some_iff.mp hq
  obtain ⟨hm, hkey⟩ := (Server.pending?_iff (hg.server y).distinct).mp hpc
  rintro rfl
  exact hk (((hg.server y).id pc hm).2.trans hkey)

theorem noise_answer (hg : Registry S key g) {a : ℤ} {id : ℕ} {has : Bool}
    (hlt : id < (g.server a).nextQueryID) (hk : key a id ≠ k) :
    (tieBreak S k g).Noise (only a (.answer has id)) := by
  intro y m hm
  unfold only at hm
  split_ifs at hm with hy
  · obtain rfl := List.mem_singleton.mp hm
    subst hy
    exact ⟨has, id, rfl, hlt, fun q hq => pend_id_ne hg hk hq⟩
  · simp at hm

/-- What a completed create sends to the servers whose answer it postponed. -/
theorem outbox_notify (hN : 2 ≤ S.totalNumServers) {pc : PendingCreate}
    (hs : Registered S key next j s) (hpc : pc ∈ s.pendingCreates) (d : ℤ) :
    outbox S k (notifyServersOfCreation (S.config j) pc ++
      messageBackClients (S.config j) pc d) j =
      fun y => ((pendOf S j pc).postponed.filter fun r => r.1 = y).map fun r => .answer true r.2 := by
  have hback : channel k ((messageBackClients (S.config j) pc d).filter fun p => S.Served p) j =
      fun _ => [] := by
    funext y
    refine List.filterMap_eq_nil_iff.mpr fun q hq => ?_
    obtain ⟨qs, -, rfl⟩ := List.mem_map.mp (List.mem_of_mem_filter hq)
    exact onChannel_silent rfl j y
  funext y
  unfold outbox
  rw [List.filter_append, channel_append, hback, List.append_nil]
  have hq := hs.queued pc hpc
  simp only [notifyServersOfCreation, pendOf]
  generalize pc.serverResponseQueue = l at hq
  induction l with
  | nil => rfl
  | cons r l ih =>
    obtain ⟨⟨hserver, -, hbox⟩, -⟩ := hq r (by simp)
    have hserved : S.Served ⟨r.replyMachine, r.replyMailbox, (S.config j).myMachineID, 1,
        .haveName pc.type r.replyMessageID⟩ := ⟨hserver, Or.inr ⟨hbox, by omega⟩⟩
    have ih := ih fun x hx => hq x (List.mem_cons_of_mem _ hx)
    rw [List.map_cons, List.filter_cons_of_pos (by exact decide_eq_true hserved), List.map_cons]
    by_cases hy : r.replyMachine = y
    · rw [channel, List.filterMap_cons_some (b := .answer true r.replyMessageID), ← channel, ih,
        List.filter_cons_of_pos (by simpa using hy), List.map_cons]
      simp [onChannel, OnChannel, hy, hbox, decode]
    · rw [channel, List.filterMap_cons_none, ← channel, ih,
        List.filter_cons_of_neg (by simpa using hy)]
      simp [onChannel, OnChannel, hy]

/-- The queries of a create that starts. -/
theorem outbox_start (hN : 2 ≤ S.totalNumServers) (id : ℕ) :
    outbox S k (toAllServers (S.config j) (.doYouHaveName k.1 id k.2)) j =
      fun y => if y ∈ S.servers ∧ y ≠ j then [.ask id] else [] := by
  funext y
  have hserved : (toAllServers (S.config j) (.doYouHaveName k.1 id k.2)).filter
      (fun p => S.Served p) = toAllServers (S.config j) (.doYouHaveName k.1 id k.2) := by
    refine List.filter_eq_self.mpr fun q hq => ?_
    obtain ⟨i, hi, rfl⟩ := List.mem_map.mp hq
    exact decide_eq_true ⟨(mem_otherServers.mp hi).1, Or.inr ⟨rfl, by omega⟩⟩
  have hmem : y ∈ otherServers (S.config j) ↔ y ∈ S.servers ∧ y ≠ j := by
    rw [mem_otherServers, Setting.mem_servers]
    rfl
  have hnd := otherServers_nodup (S.config j)
  unfold outbox
  rw [hserved, channel, toAllServers, List.filterMap_map, ← if_congr hmem rfl rfl]
  clear hserved hmem
  generalize otherServers (S.config j) = l at hnd ⊢
  induction l with
  | nil => rfl
  | cons i l ih =>
    rw [List.nodup_cons] at hnd
    by_cases hy : i = y
    · subst hy
      rw [List.filterMap_cons_some (b := .ask id), ih hnd.2, if_neg hnd.1, if_pos (by simp)]
      simp [onChannel, OnChannel, decode]
    · rw [List.filterMap_cons_none, ih hnd.2]
      · simp [Ne.symm hy]
      · simp [onChannel, OnChannel, hy]

theorem holds_createObject {k' : StructureType × Name} (h : k ≠ k') (id : ℕ) :
    (removePending (createObject s k').1 id).Holds k ↔ s.Holds k := by
  have he := checkIfExists_createObject (s := s) h
  change checkIfExists (createObject s k').1 k.1 k.2 ≠ none ↔ checkIfExists s k.1 k.2 ≠ none
  rw [← Option.isSome_iff_ne_none, ← Option.isSome_iff_ne_none, he]

theorem holds_mono (k' : StructureType × Name) (id : ℕ) (h : s.Holds k) :
    (removePending (createObject s k').1 id).Holds k := by
  have he := @checkIfExists_createObject_mono _ k' _ (Option.isSome_iff_ne_none.mpr h)
  exact Option.isSome_iff_ne_none.mp he

/-- The answer to a query about another name. -/
theorem refines_noise (hg : Registry S key g) (hN : 2 ≤ S.totalNumServers)
    (hb : BetweenServers S p) {id : ℕ} {has : Bool} {data : Message}
    (hlt : id < (g.server p.fromMachine).nextQueryID) (hk : key p.fromMachine id ≠ k)
    (hsilent : decode k p.data = none) (hdata : decode k data = some (.answer has id)) :
    Step S.servers .other (tieBreak S k g)
      (tieBreak S k ⟨Function.update g.server p.toMachine (g.server p.toMachine),
        S.post (g.net.erase p) [respondOnceToServer (S.config p.toMachine) p data]⟩) := by
  rw [tieBreak_update_of_holds Iff.rfl, pend_update_self, next_update_self,
    channel_post _ (j := p.toMachine) (by simp [respondOnceToServer]),
    channel_erase_silent _ (onChannel_silent hsilent), outbox_answer hN hb hdata]
  exact Step.noise _ _ (noise_answer hg hlt hk)

/-- An action that changes nothing the tie break sees. -/
theorem refines_silent {e : Event ℤ} (he : e = .other) (hh : t.Holds k ↔ (g.server j).Holds k)
    (hpend : (t.pending? k).map (pendOf S j) = ((g.server j).pending? k).map (pendOf S j))
    (hnext : (g.server j).nextQueryID ≤ t.nextQueryID) (hsilent : decode k p.data = none)
    (hout : ∀ q ∈ out, S.Served q → decode k q.data = none) (hfrom : ∀ q ∈ out,
      q.fromMachine = j ∨ decode k q.data = none) :
    Step S.servers e (tieBreak S k g)
      (tieBreak S k ⟨Function.update g.server j t, S.post (g.net.erase p) out⟩) := by
  subst he
  rw [tieBreak_update_of_holds hh, hpend, pend_update_self, channel_post _ hfrom,
    channel_erase_silent _ (onChannel_silent hsilent), outbox_silent hout, send_nothing]
  exact Step.tick _ _ hnext

/-- The action is a step of the tie break for the name. -/
def Refined (S : Setting) (k : StructureType × Name) (g : System) (p : Packet) (t : Server)
    (out : List Packet) : Prop :=
  ∃ e, EventOf k g p t e ∧ Step S.servers e (tieBreak S k g)
    (tieBreak S k ⟨Function.update g.server p.toMachine t, S.post (g.net.erase p) out⟩)

section Moves
variable {r : Request} {k' : StructureType × Name} {type : StructureType} {id : ℕ}
  {pc : PendingCreate}

/-- A create that is answered at once or passed on. -/
theorem refines_passed (hpr : p.data = .request r)
    (hl : t.locks = (g.server p.toMachine).locks)
    (hv : t.conditions = (g.server p.toMachine).conditions)
    (hm : t.mvs = (g.server p.toMachine).mvs)
    (hd : t.pendingCreates = (g.server p.toMachine).pendingCreates)
    (hq : t.nextQueryID = (g.server p.toMachine).nextQueryID)
    (ho : ∀ q ∈ out, (∃ d, q.data = .reply d ∧ q.toMachine = p.fromMachine) ∨
      q.data = p.data ∧ q.fromMachine = p.fromMachine) :
    Refined S k g p t out := by
  have hreq : ∀ q : Packet, (∃ d, q.data = .reply d ∧ q.toMachine = p.fromMachine) ∨
      q.data = p.data ∧ q.fromMachine = p.fromMachine → decode k q.data = none := by
    rintro q (⟨d, hqd, -⟩ | ⟨hqd, -⟩)
    · simp [hqd, decode]
    · simp [hqd, hpr, decode]
  refine ⟨.other, trivial, refines_silent rfl ?_ ?_ hq.ge (by simp [hpr, decode])
    (fun q hqo _ => hreq q (ho q hqo)) (fun q hqo => Or.inr (hreq q (ho q hqo)))⟩
  · obtain ⟨k1, k2⟩ := k
    cases k1 <;> simp only [Server.Holds, checkIfExists, checkIfLockExists, checkIfCVExists,
      checkIfMVExists, hl, hv, hm]
  · simp only [Server.pending?, hd]

theorem refines_joined (hpr : p.data = .request r) :
    Refined S k g p (addWaitingClient (g.server p.toMachine) pc.ID p) [] := by
  refine ⟨.other, trivial, refines_silent rfl Iff.rfl ?_ (Nat.le_succ _) (by simp [hpr, decode])
    (by simp) (by simp)⟩
  exact pending?_modify_silent (s := g.server p.toMachine)
    (f := fun x => { x with waitingClients := x.waitingClients ++ [_] }) (fun _ => rfl) rfl
    fun _ _ _ => rfl

/-- A create sends its queries. -/
theorem refines_started (hN : 2 ≤ S.totalNumServers) (hg : Registry S key g)
    (hen : S.Enabled g.net p) (hpr : p.data = .request r)
    (hx : checkIfExists (g.server p.toMachine) k'.1 k'.2 = none)
    (hpc : (g.server p.toMachine).pending? k' = none) :
    Refined S k g p (addWaitingClient (newPendingCreate (S.config p.toMachine) (g.server p.toMachine)
        k'.2 k'.1).1 (g.server p.toMachine).nextQueryID p)
      (toAllServers (S.config p.toMachine)
        (.doYouHaveName k'.1 (g.server p.toMachine).nextQueryID k'.2)) := by
  have hs := hg.server p.toMachine
  have hj : p.toMachine ∈ S.servers := Setting.mem_servers.mpr (hg.served p hen.1).1
  have hlist := started_pendingCreates (p := p) hs rfl k'
  have hpend : (addWaitingClient (newPendingCreate (S.config p.toMachine) (g.server p.toMachine)
      k'.2 k'.1).1 (g.server p.toMachine).nextQueryID p).pending? k =
      ((g.server p.toMachine).pending? k).or (if k' = k then
        some (freshPending p.toMachine (g.server p.toMachine) k' p) else none) := by
    unfold Server.pending?
    rw [hlist, List.find?_append]
    congr 1
    by_cases hk : k' = k <;> simp [freshPending, PendingCreate.key, hk]
  by_cases hk : k' = k
  · subst hk
    refine ⟨.other, trivial, ?_⟩
    have hh : (addWaitingClient (newPendingCreate (S.config p.toMachine) (g.server p.toMachine)
        k'.2 k'.1).1 (g.server p.toMachine).nextQueryID p).Holds k' ↔
        (g.server p.toMachine).Holds k' := Iff.rfl
    rw [tieBreak_update_of_holds hh, hpend, hpc, if_pos rfl, Option.none_or,
      channel_post _ (j := p.toMachine) (by simp [toAllServers]),
      channel_erase_silent _ (onChannel_silent (by simp [hpr, decode])), outbox_start hN]
    have hfresh : (some (freshPending p.toMachine (g.server p.toMachine) k' p)).map
        (pendOf S p.toMachine) = some ⟨(g.server p.toMachine).nextQueryID, ∅, 0, []⟩ := by
      simp [freshPending, pendOf]
    rw [hfresh]
    refine Step.start (s := tieBreak S k' g) p.toMachine _ hj (fun h => h hx)
      (by simp [tieBreak, hpc]) ?_
    simp [tieBreak, addWaitingClient, newPendingCreate, newQueryStatus, modifyPending]
  · refine ⟨.other, trivial, refines_silent rfl Iff.rfl ?_ ?_ (by simp [hpr, decode]) ?_ ?_⟩
    · rw [hpend, if_neg hk, Option.or_none]
    · simp only [addWaitingClient, newPendingCreate, newQueryStatus, modifyPending]
      omega
    · intro q hq _
      obtain ⟨i, -, rfl⟩ := List.mem_map.mp hq
      simp [decode, hk]
    · simp [toAllServers]

theorem refines_confirmed (hN : 2 ≤ S.totalNumServers) (hord : S.ordered = true) (hg : Registry S key g)
    (hen : S.Enabled g.net p) (hpd : p.data = .doYouHaveName k'.1 id k'.2)
    (hx : checkIfExists (g.server p.toMachine) k'.1 k'.2 ≠ none) :
    Refined S k g p (g.server p.toMachine)
      [respondOnceToServer (S.config p.toMachine) p (.haveName k'.1 id)] := by
  have hp := hg.proper p hen.1
  simp only [ProperMessage, hpd] at hp
  obtain ⟨hb, hlt, hkey⟩ := hp
  by_cases hk : k' = k
  · subst hk
    refine ⟨.other, trivial, ?_⟩
    obtain ⟨rest, hc, hdrop⟩ := channel_erase_head (k := k') (m := .ask id) hord hen hb
      (by simp [hpd, decode])
    rw [tieBreak_update_of_holds Iff.rfl, pend_update_self, next_update_self,
      channel_post _ (j := p.toMachine) (by simp [respondOnceToServer]), hdrop,
      outbox_answer (m := .answer true id) hN hb rfl]
    exact Step.confirm (s := tieBreak S k' g) p.fromMachine p.toMachine id rest hc hx
  · exact ⟨.other, trivial, refines_noise hg hN hb hlt (by rwa [hkey])
      (by simp [hpd, decode, hk]) rfl⟩

theorem refines_denied (hN : 2 ≤ S.totalNumServers) (hord : S.ordered = true) (hg : Registry S key g)
    (hen : S.Enabled g.net p) (hpd : p.data = .doYouHaveName k'.1 id k'.2)
    (hx : checkIfExists (g.server p.toMachine) k'.1 k'.2 = none)
    (hd : ∀ pc, (g.server p.toMachine).pending? k' = some pc →
      pc.responseTracker p.fromMachine = false ∧ ¬ p.toMachine < p.fromMachine) :
    Refined S k g p (g.server p.toMachine)
      [respondOnceToServer (S.config p.toMachine) p (.doNotHaveName k'.1 id)] := by
  have hp := hg.proper p hen.1
  simp only [ProperMessage, hpd] at hp
  obtain ⟨hb, hlt, hkey⟩ := hp
  by_cases hk : k' = k
  · subst hk
    refine ⟨.other, trivial, ?_⟩
    obtain ⟨rest, hc, hdrop⟩ := channel_erase_head (k := k') (m := .ask id) hord hen hb
      (by simp [hpd, decode])
    rw [tieBreak_update_of_holds Iff.rfl, pend_update_self, next_update_self,
      channel_post _ (j := p.toMachine) (by simp [respondOnceToServer]), hdrop,
      outbox_answer (m := .answer false id) hN hb rfl]
    refine Step.deny (s := tieBreak S k' g) p.fromMachine p.toMachine id rest hc
      (fun h => h hx) fun q hq => ?_
    obtain ⟨pc, hpc, rfl⟩ := Option.map_eq_some_iff.mp hq
    obtain ⟨h1, h2⟩ := hd pc hpc
    exact ⟨by simp [pendOf, h1], h2⟩
  · exact ⟨.other, trivial, refines_noise hg hN hb hlt (by rwa [hkey])
      (by simp [hpd, decode, hk]) rfl⟩

theorem refines_postponed (hord : S.ordered = true) (hg : Registry S key g)
    (hen : S.Enabled g.net p) (hpd : p.data = .doYouHaveName k'.1 id k'.2)
    (hx : checkIfExists (g.server p.toMachine) k'.1 k'.2 = none)
    (hpc : (g.server p.toMachine).pending? k' = some pc)
    (hd : pc.responseTracker p.fromMachine = true ∨ p.toMachine < p.fromMachine) :
    Refined S k g p (postpone (g.server p.toMachine) pc p id) [] := by
  have hs := hg.server p.toMachine
  have hp := hg.proper p hen.1
  simp only [ProperMessage, hpd] at hp
  obtain ⟨hb, hlt, hkey⟩ := hp
  have hpend := pending?_modify (k := k) (s := g.server p.toMachine)
    (t := postpone (g.server p.toMachine) pc p id) (n := pc.ID)
    (f := fun x => { x with serverResponseQueue :=
      x.serverResponseQueue ++ [⟨p.fromMachine, p.fromMailbox, id⟩] }) (fun _ => rfl) rfl
  by_cases hk : k' = k
  · subst hk
    refine ⟨.postpone p.fromMachine p.toMachine,
      ⟨rfl, rfl, ⟨id, hpd⟩, fun h => h hx, pc, hpc, hd⟩, ?_⟩
    obtain ⟨rest, hc, hdrop⟩ := channel_erase_head (k := k') (m := .ask id) hord hen hb
      (by simp [hpd, decode])
    have hh : (postpone (g.server p.toMachine) pc p id).Holds k' ↔
        (g.server p.toMachine).Holds k' := Iff.rfl
    rw [tieBreak_update_of_holds hh, hpend, hpc,
      channel_post _ (j := p.toMachine) (by simp), hdrop, outbox_silent (by simp), send_nothing,
      show (postpone (g.server p.toMachine) pc p id).nextQueryID =
        (g.server p.toMachine).nextQueryID from rfl, next_update_self]
    rw [Option.map_some, if_pos rfl, Option.map_some, pendOf_postpone]
    refine Step.postpone (s := tieBreak S k' g) p.fromMachine p.toMachine id rest
      (pendOf S p.toMachine pc) hc (fun h => h hx) (congrArg (Option.map _) hpc) ?_
    simpa [pendOf, Setting.mem_servers, hb.server, hb.ne] using hd
  · refine ⟨.other, trivial, refines_silent rfl Iff.rfl ?_ le_rfl (by simp [hpd, decode, hk])
      (by simp) (by simp)⟩
    obtain ⟨hm, hpk⟩ := (Server.pending?_iff hs.distinct).mp hpc
    rw [hpend, pending?_modify_other hs hm (hpk ▸ hk)]

/-- An answer to a create that is no longer pending. -/
theorem refines_stale (hord : S.ordered = true) (hg : Registry S key g) (hen : S.Enabled g.net p)
    (hpd : p.data = .haveName type id ∨ p.data = .doNotHaveName type id)
    (hpc : ∀ pc ∈ (g.server p.toMachine).pendingCreates, pc.ID ≠ id) :
    Refined S k g p (g.server p.toMachine) [] := by
  have hs := hg.server p.toMachine
  have hp := hg.proper p hen.1
  have hb : BetweenServers S p := by
    rcases hpd with hpd | hpd <;> simp only [ProperMessage, hpd] at hp <;> exact hp.1
  obtain ⟨has, hm⟩ : ∃ has, decode k p.data = some (.answer has id) := by
    rcases hpd with hpd | hpd
    · exact ⟨true, by rw [hpd]; rfl⟩
    · exact ⟨false, by rw [hpd]; rfl⟩
  obtain ⟨rest, hc, hdrop⟩ := channel_erase_head hord hen hb hm
  refine ⟨.other, trivial, ?_⟩
  rw [tieBreak_update_of_holds Iff.rfl, pend_update_self, next_update_self,
    channel_post _ (j := p.toMachine) (by simp), hdrop, outbox_silent (by simp)]
  refine Step.ignore (s := tieBreak S k g) p.fromMachine p.toMachine has id rest _ hc ?_
    (State.noise_nothing _)
  intro q hq
  obtain ⟨pc, hpc', rfl⟩ := Option.map_eq_some_iff.mp hq
  exact hpc pc ((Server.pending?_iff hs.distinct).mp hpc').1

theorem refines_yielded (hord : S.ordered = true) (hg : Registry S key g) (hen : S.Enabled g.net p)
    (hpd : p.data = .haveName type pc.ID) (hpc : pc ∈ (g.server p.toMachine).pendingCreates) :
    Refined S k g p (removePending (g.server p.toMachine) pc.ID)
      (forwardWaitingClientMessagesToServer pc p.fromMachine) := by
  have hs := hg.server p.toMachine
  have hp := hg.proper p hen.1
  simp only [ProperMessage, hpd] at hp
  obtain ⟨hb, hlt⟩ := hp
  obtain ⟨rest, hc, hdrop⟩ := channel_erase_head (k := k) (m := .answer true pc.ID) hord hen hb
    (by simp [hpd, decode])
  have hh : (removePending (g.server p.toMachine) pc.ID).Holds k ↔
      (g.server p.toMachine).Holds k := Iff.rfl
  have hfwd : ∀ q ∈ forwardWaitingClientMessagesToServer pc p.fromMachine,
      decode k q.data = none := by
    intro q hq
    obtain ⟨qs, hqs, rfl⟩ := List.mem_map.mp hq
    obtain ⟨-, r, hr, -⟩ := (hs.clients pc hpc).2 qs hqs
    simp [hr, decode]
  refine ⟨.other, trivial, ?_⟩
  rw [tieBreak_update_of_holds hh, pending?_remove hs hpc,
    show (removePending (g.server p.toMachine) pc.ID).nextQueryID =
      (g.server p.toMachine).nextQueryID from rfl, next_update_self,
    channel_post _ (j := p.toMachine) (fun q hq => Or.inr (hfwd q hq)), hdrop,
    outbox_silent fun q hq _ => hfwd q hq]
  by_cases hk : pc.key = k
  · rw [if_pos hk, Option.map_none, send_nothing]
    refine Step.yield (s := tieBreak S k g) p.fromMachine p.toMachine rest
      (pendOf S p.toMachine pc) hc ?_
    exact congrArg (Option.map _) ((Server.pending?_iff hs.distinct).mpr ⟨hpc, hk⟩)
  · rw [if_neg hk, pend_update_self]
    refine Step.ignore (s := tieBreak S k g) p.fromMachine p.toMachine true pc.ID rest _ hc ?_
      (State.noise_nothing _)
    exact fun q hq => pend_id_ne hg ((hs.id pc hpc).2 ▸ hk) hq

theorem refines_counted (hord : S.ordered = true) (hg : Registry S key g) (hen : S.Enabled g.net p)
    (hpd : p.data = .doNotHaveName type pc.ID) (hpc : pc ∈ (g.server p.toMachine).pendingCreates)
    (hnum : pc.numResponses + 1 ≠ S.totalNumServers - 1) :
    Refined S k g p
      (modifyPending (g.server p.toMachine) pc.ID fun pc => countResponse pc p.fromMachine) [] := by
  have hs := hg.server p.toMachine
  have hp := hg.proper p hen.1
  simp only [ProperMessage, hpd] at hp
  obtain ⟨hb, hlt⟩ := hp
  obtain ⟨rest, hc, hdrop⟩ := channel_erase_head (k := k) (m := .answer false pc.ID) hord hen hb
    (by simp [hpd, decode])
  have hh : (modifyPending (g.server p.toMachine) pc.ID
      fun pc => countResponse pc p.fromMachine).Holds k ↔ (g.server p.toMachine).Holds k := Iff.rfl
  have hpend := pending?_modify (k := k) (s := g.server p.toMachine)
    (t := modifyPending (g.server p.toMachine) pc.ID fun pc => countResponse pc p.fromMachine)
    (n := pc.ID) (f := fun pc => countResponse pc p.fromMachine) (fun _ => rfl) rfl
  refine ⟨.other, trivial, ?_⟩
  rw [tieBreak_update_of_holds hh, hpend,
    show (modifyPending (g.server p.toMachine) pc.ID
      fun pc => countResponse pc p.fromMachine).nextQueryID =
      (g.server p.toMachine).nextQueryID from rfl, next_update_self,
    channel_post _ (j := p.toMachine) (by simp), hdrop, outbox_silent (by simp)]
  by_cases hk : pc.key = k
  · have hfind := (Server.pending?_iff hs.distinct).mpr ⟨hpc, hk⟩
    rw [hfind, Option.map_some, if_pos rfl, Option.map_some, send_nothing,
      pendOf_count pc hb.server hb.ne]
    refine Step.count (s := tieBreak S k g) p.fromMachine p.toMachine rest
      (pendOf S p.toMachine pc) hc (congrArg (Option.map _) hfind) ?_
    rw [Setting.card_servers]
    simp only [pendOf]
    omega
  · rw [pending?_modify_other hs hpc hk, pend_update_self]
    refine Step.ignore (s := tieBreak S k g) p.fromMachine p.toMachine false pc.ID rest _ hc ?_
      (State.noise_nothing _)
    exact fun q hq => pend_id_ne hg ((hs.id pc hpc).2 ▸ hk) hq

/-- The last answer: the object is made. -/
theorem refines_completed (hN : 2 ≤ S.totalNumServers) (hord : S.ordered = true) (hg : Registry S key g)
    (hen : S.Enabled g.net p) (hpd : p.data = .doNotHaveName type pc.ID)
    (hpc : pc ∈ (g.server p.toMachine).pendingCreates)
    (hnum : pc.numResponses + 1 = S.totalNumServers - 1) :
    Refined S k g p (removePending (createObject (g.server p.toMachine) pc.key).1 pc.ID)
      (notifyServersOfCreation (S.config p.toMachine) pc ++
        messageBackClients (S.config p.toMachine) pc (encodeIndex (S.config p.toMachine)
          (createObject (g.server p.toMachine) pc.key).2)) := by
  have hs := hg.server p.toMachine
  have hp := hg.proper p hen.1
  simp only [ProperMessage, hpd] at hp
  obtain ⟨hb, hlt⟩ := hp
  obtain ⟨rest, hc, hdrop⟩ := channel_erase_head (k := k) (m := .answer false pc.ID) hord hen hb
    (by simp [hpd, decode])
  obtain ⟨hlist, hnext⟩ := createObject_frame (g.server p.toMachine) pc.key
  have hpend : (removePending (createObject (g.server p.toMachine) pc.key).1 pc.ID).pending? k =
      (removePending (g.server p.toMachine) pc.ID).pending? k := by
    simp only [Server.pending?, removePending, hlist]
  have hnext' : (removePending (createObject (g.server p.toMachine) pc.key).1
      pc.ID).nextQueryID = (g.server p.toMachine).nextQueryID := hnext
  have hfrom : ∀ q ∈ notifyServersOfCreation (S.config p.toMachine) pc ++
      messageBackClients (S.config p.toMachine) pc (encodeIndex (S.config p.toMachine)
        (createObject (g.server p.toMachine) pc.key).2),
      q.fromMachine = p.toMachine ∨ decode k q.data = none := by
    intro q hq
    rcases List.mem_append.mp hq with hq | hq
    · obtain ⟨r, -, rfl⟩ := List.mem_map.mp hq
      exact Or.inl rfl
    · obtain ⟨qs, -, rfl⟩ := List.mem_map.mp hq
      exact Or.inr rfl
  by_cases hk : pc.key = k
  · have hfind := (Server.pending?_iff hs.distinct).mpr ⟨hpc, hk⟩
    obtain ⟨client, hclient⟩ := List.exists_mem_of_ne_nil _ (hs.clients pc hpc).1
    obtain ⟨-, r, -, hr⟩ := (hs.clients pc hpc).2 client hclient
    refine ⟨.complete p.toMachine _, ⟨rfl, rfl, creates_ne_mv (hk ▸ hr), pc.ID, by rw [hk]⟩, ?_⟩
    have hstep := @Step.complete _ _ S.servers (tieBreak S k g) p.fromMachine
      p.toMachine rest (pendOf S p.toMachine pc)
      ((removePending (createObject (g.server p.toMachine) pc.key).1 pc.ID).Holds k) hc
      (congrArg (Option.map _) hfind) (by
        rw [Setting.card_servers]
        simp only [pendOf]
        omega)
    rw [tieBreak_update, hpend, pending?_remove hs hpc, if_pos hk, Option.map_none, hnext',
      next_update_self, channel_post _ hfrom, hdrop, outbox_notify hN hs hpc]
    convert hstep using 2
    · funext i
      refine propext ?_
      by_cases hi : i = p.toMachine
      · subst hi
        simp only [if_true, true_and]
        exact ⟨Or.inr, fun h => h.elim (holds_mono _ _) id⟩
      · simp only [hi, if_false, false_and, or_false]
        rfl
    · rfl
  · refine ⟨.other, trivial, ?_⟩
    rw [tieBreak_update_of_holds (holds_createObject (Ne.symm hk) _), hpend,
      pending?_remove hs hpc, if_neg hk, pend_update_self, hnext', next_update_self,
      channel_post _ hfrom, hdrop, outbox_notify hN hs hpc]
    refine Step.ignore (s := tieBreak S k g) p.fromMachine p.toMachine false pc.ID rest _ hc
      (fun q hq => pend_id_ne hg ((hs.id pc hpc).2 ▸ hk) hq) ?_
    intro y m hm
    obtain ⟨r, hr, rfl⟩ := List.mem_map.mp hm
    obtain ⟨hr, hy⟩ := List.mem_filter.mp hr
    obtain ⟨r', hr', rfl⟩ := List.mem_map.mp hr
    obtain rfl : r'.replyMachine = y := by simpa using hy
    obtain ⟨-, hrlt, hrkey⟩ := hs.queued pc hpc r' hr'
    exact ⟨true, _, rfl, hrlt, fun q hq => pend_id_ne hg (hrkey ▸ hk) hq⟩

end Moves

/-- Every move of a server is a step of the tie break for every name. -/
theorem Move.refines (hN : 2 ≤ S.totalNumServers) (hord : S.ordered = true)
    (hg : Registry S key g) (hen : S.Enabled g.net p)
    (h : Move S p.toMachine (g.server p.toMachine) p t out) (k : StructureType × Name) :
    Refined S k g p t out := by
  cases h with
  | passed hpr _ hl hv hm hd hq _ ho => exact refines_passed hpr hl hv hm hd hq ho
  | joined hpr => exact refines_joined hpr
  | started hpr _ hx hpc => exact refines_started hN hg hen hpr hx hpc
  | confirmed hpd hx => exact refines_confirmed hN hord hg hen hpd hx
  | denied hpd hx hd => exact refines_denied hN hord hg hen hpd hx hd
  | postponed hpd hx hpc hd => exact refines_postponed hord hg hen hpd hx hpc hd
  | stale hpd hpc => exact refines_stale hord hg hen hpd hpc
  | yielded hpd hpc hid =>
    subst hid
    exact refines_yielded hord hg hen hpd hpc
  | counted hpd hpc hid hnum =>
    subst hid
    exact refines_counted hord hg hen hpd hpc hnum
  | completed hpd hpc hid hnum =>
    subst hid
    exact refines_completed hN hord hg hen hpd hpc hnum

end Nachos.Network
