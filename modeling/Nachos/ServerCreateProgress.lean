import Nachos.TieBreakProgress
import Nachos.ServerCreateAgreement

/-! Whether the creates of one name always come to an end. A server can postpone its
answer to a server that it waits for itself, through others; then nobody is served. -/
namespace Nachos.Network
open SlotTables Executions BoxOne TieBreak Relation

variable {S : Setting} {k : StructureType × Name} {g g' : System} {s t : Server} {p : Packet}
  {out : List Packet} {j : ℤ} {key : ℤ → ℕ → StructureType × Name} {next : ℤ → ℕ}

/-- Only creates of this name arrive from clients. -/
def OnlyCreatesOf (S : Setting) (k : StructureType × Name) (x : NetworkStep) : Prop :=
  ∀ p, x.event.1 = .arrive p → ClientCreate S p ∧ ∀ r, p.data = .request r → creates r = some k

/-- No message of a server is in flight, and a create waits with clients that have been
neither answered nor forwarded. -/
def Stuck (S : Setting) (g : System) : Prop :=
  (∀ p ∈ g.net, ¬ S.IsServer p.fromMachine) ∧
    ∃ j, ∃ pc ∈ (g.server j).pendingCreates, pc.waitingClients ≠ []

/-- Server `j` has postponed its answer to a pending create of server `i`. -/
def WaitsFor (g : System) (i j : ℤ) : Prop :=
  ∃ pi ∈ (g.server i).pendingCreates, ∃ pj ∈ (g.server j).pendingCreates,
    ∃ r ∈ pj.serverResponseQueue, r.replyMachine = i ∧ r.replyMessageID = pi.ID

/-- A query is handled by a server that postpones its answer although it waits for the
asker, directly or through other servers. -/
def ClosesCycle (x : NetworkStep) : Prop :=
  ∃ p k, x.event.1 = .handle p ∧ Postpones k x.before p ∧
    TransGen (WaitsFor x.before) p.toMachine p.fromMachine

/-! Runs about one name. -/

/-- All objects of a server have the name. -/
def OnlyObjects (k : StructureType × Name) (s : Server) : Prop :=
  (∀ i e, s.lock? i = some e → (.lock, e.lock.name) = k) ∧
    ∀ i e, s.condition? i = some e → (.cv, e.condition.name) = k

structure SingleName (k : StructureType × Name) (g : System) : Prop where
  pending : ∀ j, ∀ pc ∈ (g.server j).pendingCreates, pc.key = k
  requests : ∀ p ∈ g.net, ∀ r, p.data = .request r → creates r = some k
  objects : ∀ j, OnlyObjects k (g.server j)

theorem allocate_ne_nil {α : Type} {n : ℕ} (hn : n ≠ 0) (t : SlotTable α) : allocate n t ≠ [] := by
  unfold allocate
  split_ifs with h
  · simpa [List.replicate_eq_nil_iff] using hn
  · exact fun he => h (by simp [he])

theorem firstFree_of_empty {α : Type} {t : SlotTable α} (hne : t ≠ [])
    (h : ∀ i, live? t i = none) : firstFree t ≠ none := by
  intro hf
  obtain ⟨c, l, rfl⟩ := List.exists_cons_of_ne_nil hne
  have hc := List.findIdx?_eq_none_iff.mp hf c (by simp)
  cases c with
  | none => simp at hc
  | some a => simpa [live?] using h 0

/-- A create of a name in a table without other names succeeds. -/
theorem search_createEntry_self {α : Type} {t : SlotTable α} {q : α → Bool} {fresh : α}
    (hne : t ≠ []) (hq : q fresh = true) (h : ∀ i a, live? t i = some a → q a = true) :
    (search (createEntry t q fresh).1 q).isSome = true := by
  cases hs : search t q with
  | some i => exact search_createEntry_mono (by simp [hs])
  | none =>
    have hempty : ∀ i, live? t i = none := by
      intro i
      by_contra hi
      obtain ⟨a, ha⟩ := Option.ne_none_iff_exists'.mp hi
      simpa [h i a ha] using search_none.mp hs i a ha
    obtain ⟨i, hi⟩ := Option.ne_none_iff_exists'.mp (firstFree_of_empty hne hempty)
    refine search_isSome_iff.mpr ⟨i, fresh, ?_, hq⟩
    simp only [createEntry, hs, hi, live?_put_firstFree hi, if_true]

theorem createObject_holds (h : OnlyObjects k s) (hk : k.1 ≠ .mv) (id : ℕ) :
    (removePending (createObject s k).1 id).Holds k := by
  obtain ⟨type, name⟩ := k
  refine Option.isSome_iff_ne_none.mp ?_
  cases type with
  | lock =>
    refine search_createEntry_self (allocate_ne_nil (by decide) _) (by simp [ServerLock.new]) ?_
    intro i e he
    rw [live?_allocate] at he
    simpa using h.1 i e he
  | cv =>
    refine search_createEntry_self (allocate_ne_nil (by decide) _)
      (by simp [ServerCondition.new]) ?_
    intro i e he
    rw [live?_allocate] at he
    simpa using h.2 i e he
  | mv => exact (hk rfl).elim

theorem createObject_only (h : OnlyObjects k s) : OnlyObjects k (createObject s k).1 := by
  obtain ⟨type, name⟩ := k
  cases type with
  | lock =>
    refine ⟨fun i e he => ?_, h.2⟩
    rcases serverCreateLock_lock? s name i with hi | ⟨-, hi⟩
    · exact h.1 i e (hi.symm.trans he)
    · obtain rfl := Option.some.inj (hi.symm.trans he)
      rfl
  | cv =>
    refine ⟨h.1, fun i e he => ?_⟩
    rcases serverCreateCV_condition? s name i with hi | ⟨-, hi⟩
    · exact h.2 i e (hi.symm.trans he)
    · obtain rfl := Option.some.inj (hi.symm.trans he)
      rfl
  | mv => exact h

theorem Move.single (h : Move S j s p t out) (hs : Registered S key next j s)
    (hp : ∀ r, p.data = .request r → creates r = some k)
    (hpend : ∀ pc ∈ s.pendingCreates, pc.key = k) (hobj : OnlyObjects k s) :
    (∀ pc ∈ t.pendingCreates, pc.key = k) ∧
      (∀ q ∈ out, ∀ r, q.data = .request r → creates r = some k) ∧ OnlyObjects k t := by
  have hmodify : ∀ {id : ℕ} {f : PendingCreate → PendingCreate}, (∀ pc, (f pc).key = pc.key) →
      ∀ pc ∈ (modifyPending s id f).pendingCreates, pc.key = k := by
    intro id f hf pc hpc
    obtain ⟨x, hx, rfl⟩ := List.mem_map.mp hpc
    split_ifs
    · exact (hf x).trans (hpend x hx)
    · exact hpend x hx
  cases h with
  | @passed r _ _ hpr hc hl hv hm hd hq hw ho =>
    refine ⟨fun pc hpc => hpend pc (hd ▸ hpc), fun q hqo r' hr' => ?_, ?_⟩
    · rcases ho q hqo with ⟨d, hd', -⟩ | ⟨hdata, -⟩
      · simp [hd'] at hr'
      · exact hp r' (hdata ▸ hr')
    · unfold OnlyObjects Server.lock? Server.condition?
      rw [hl, hv]
      exact hobj
  | joined hpr hc hx hpc => exact ⟨hmodify fun _ => rfl, by simp, hobj⟩
  | @started r k' hpr hc hx hpc =>
    have hk : k' = k := Option.some.inj (hc.symm.trans (hp r hpr))
    refine ⟨fun pc hpc' => ?_, fun q hq r' hr' => ?_, hobj⟩
    · obtain ⟨x, hx', rfl⟩ := List.mem_map.mp hpc'
      have hxk : x.key = k := by
        rcases List.mem_append.mp hx' with hx' | hx'
        · exact hpend x hx'
        · obtain rfl := List.mem_singleton.mp hx'
          exact hk
      split_ifs
      · exact hxk
      · exact hxk
    · obtain ⟨i, -, rfl⟩ := List.mem_map.mp hq
      simp at hr'
  | confirmed hpd hx =>
    refine ⟨hpend, fun q hq r' hr' => ?_, hobj⟩
    obtain rfl := List.mem_singleton.mp hq
    simp [respondOnceToServer] at hr'
  | denied hpd hx hd =>
    refine ⟨hpend, fun q hq r' hr' => ?_, hobj⟩
    obtain rfl := List.mem_singleton.mp hq
    simp [respondOnceToServer] at hr'
  | postponed hpd hx hpc hd => exact ⟨hmodify fun _ => rfl, by simp, hobj⟩
  | stale hpd hpc => exact ⟨hpend, by simp, hobj⟩
  | @yielded type id pc hpd hpc hid =>
    refine ⟨fun x hx => hpend x ((removePending_sublist s id).subset hx), fun q hq r' hr' => ?_,
      hobj⟩
    obtain ⟨qs, hqs, rfl⟩ := List.mem_map.mp hq
    obtain ⟨-, r, hr, hcr⟩ := (hs.clients pc hpc).2 qs hqs
    obtain rfl := Message.request.inj (hr.symm.trans hr')
    rw [hcr, hpend pc hpc]
  | counted hpd hpc hid hn => exact ⟨hmodify fun _ => rfl, by simp, hobj⟩
  | @completed type id pc hpd hpc hid hn =>
    refine ⟨fun x hx => ?_, fun q hq r' hr' => ?_, ?_⟩
    · have hx' := (removePending_sublist _ id).subset hx
      rw [(createObject_frame s pc.key).1] at hx'
      exact hpend x hx'
    · rcases List.mem_append.mp hq with hq | hq
      · obtain ⟨r, -, rfl⟩ := List.mem_map.mp hq
        simp at hr'
      · obtain ⟨qs, -, rfl⟩ := List.mem_map.mp hq
        simp [respondOnceToClient] at hr'
    · rw [hpend pc hpc]
      exact createObject_only hobj

theorem singleName_initial : SingleName k .initial := by
  refine ⟨?_, ?_, fun j => ⟨?_, ?_⟩⟩ <;>
    simp [System.initial, Server.initial, Server.lock?, Server.condition?]

theorem singleName_step (hN : 2 ≤ S.totalNumServers) (hreg : Registry S key g)
    (hg : SingleName k g) {a : Action}
    (ha : ∀ p, a = .arrive p → ∀ r, p.data = .request r → creates r = some k)
    (h : network S g a = .ok (g', out)) : SingleName k g' := by
  cases a with
  | arrive p =>
    obtain ⟨rfl, -⟩ := network_arrive_iff.mp h
    refine ⟨hg.pending, fun q hq => ?_, hg.objects⟩
    rcases mem_post.mp hq with hq | ⟨hq, -⟩
    · exact hg.requests q hq
    · obtain rfl := List.mem_singleton.mp hq
      exact ha q rfl
  | handle p =>
    obtain ⟨hen, t, ht, rfl⟩ := network_handle_iff.mp h
    have hs := hreg.server p.toMachine
    have hmove := handlePacket_move (by omega) hs (hreg.proper p hen.1) rfl ht
    obtain ⟨h1, h2, h3⟩ := hmove.single hs (hg.requests p hen.1) (hg.pending _) (hg.objects _)
    refine ⟨fun i => ?_, fun q hq => ?_, fun i => ?_⟩
    · by_cases hi : i = p.toMachine
      · subst hi
        simpa using h1
      · simpa [Function.update_of_ne hi] using hg.pending i
    · rcases mem_post.mp hq with hq | ⟨hq, -⟩
      · exact hg.requests q (List.mem_of_mem_erase hq)
      · exact h2 q hq
    · by_cases hi : i = p.toMachine
      · subst hi
        simpa using h3
      · simpa [Function.update_of_ne hi] using hg.objects i

/-! The tie break for that name. -/

structure ProgressInvariant (S : Setting) (k : StructureType × Name) (g : System) : Prop where
  create : CreateInvariant S g
  single : SingleName k g
  accounted : Accounted S.servers (tieBreak S k g)

theorem progressInvariant_initial : ProgressInvariant S k .initial := by
  refine ⟨createInvariant_initial, singleName_initial, ?_⟩
  rw [tieBreak_initial]
  exact accounted_initial

/-- A create that completes leaves the object behind. -/
theorem EventOf.creates {e : Event ℤ} (he : EventOf k g p t e)
    (hg : OnlyObjects k (g.server p.toMachine)) : e.Creates := by
  cases e with
  | other => trivial
  | postpone a b => trivial
  | complete b created =>
    obtain ⟨-, rfl, hk, id, rfl⟩ := he
    exact createObject_holds hg hk id

theorem progressInvariant_step (hN : 2 ≤ S.totalNumServers) (hord : S.ordered = true)
    (hg : ProgressInvariant S k g) {a : Action}
    (ha : ∀ p, a = .arrive p → ClientCreate S p ∧ ∀ r, p.data = .request r → creates r = some k)
    (h : network S g a = .ok (g', out)) : ProgressInvariant S k g' := by
  obtain ⟨key, hreg⟩ := hg.create.registry
  refine ⟨createInvariant_step hN hord hg.create (fun p hp => (ha p hp).1) h,
    singleName_step hN hreg hg.single (fun p hp => (ha p hp).2) h, ?_⟩
  rcases network_refines hN hord hreg (fun p hp => (ha p hp).1) h k with he |
    ⟨p, e, -, -, he, hstep⟩
  · exact he ▸ hg.accounted
  · exact hstep.accounted (he.creates (hg.single.objects _)) (hg.create.ledger k) hg.accounted

/-- Waiting among the servers is waiting in the tie break. -/
theorem waits_iff (hg : ProgressInvariant S k g) {i j : ℤ} :
    (tieBreak S k g).Waits i j ↔ WaitsFor g i j := by
  obtain ⟨key, hreg⟩ := hg.create.registry
  have hfind : ∀ {i pc}, (g.server i).pending? k = some pc ↔ pc ∈ (g.server i).pendingCreates := by
    intro i pc
    rw [Server.pending?_iff (hreg.server i).distinct]
    exact ⟨fun h => h.1, fun h => ⟨h, hg.single.pending i pc h⟩⟩
  constructor
  · rintro ⟨p, hp, hr⟩
    obtain ⟨pi, hpi, rfl⟩ := Option.map_eq_some_iff.mp hp
    simp only [TieBreak.State.postponed, tieBreak] at hr
    cases hj : (g.server j).pending? k with
    | none => simp [hj] at hr
    | some pj =>
      rw [hj] at hr
      obtain ⟨r, hrm, he⟩ := List.mem_map.mp hr
      obtain ⟨rfl, hid⟩ := Prod.mk.inj he
      exact ⟨pi, hfind.mp hpi, pj, hfind.mp hj, r, hrm, rfl, hid⟩
  · rintro ⟨pi, hpi, pj, hpj, r, hr, rfl, hid⟩
    refine ⟨pendOf S r.replyMachine pi, congrArg (Option.map _) (hfind.mpr hpi), ?_⟩
    simp only [TieBreak.State.postponed, tieBreak, hfind.mpr hpj, Option.map_some,
      Option.elim_some]
    exact List.mem_map.mpr ⟨r, hr, by rw [hid]; rfl⟩

theorem transGen_waits_iff (hg : ProgressInvariant S k g) {i j : ℤ} :
    TransGen (tieBreak S k g).Waits i j ↔ TransGen (WaitsFor g) i j := by
  have he : (tieBreak S k g).Waits = WaitsFor g := by
    funext i j
    exact propext (waits_iff hg)
  rw [he]

/-- With no message of a server in flight, a create is stuck exactly when servers wait
for one another in a circle. -/
theorem stuck_iff_cycle (hg : ProgressInvariant S k g)
    (hquiet : ∀ p ∈ g.net, ¬ S.IsServer p.fromMachine) :
    Stuck S g ↔ ∃ i, TransGen (WaitsFor g) i i := by
  obtain ⟨key, hreg⟩ := hg.create.registry
  have hchan : ∀ i j, (tieBreak S k g).chan i j = [] := by
    intro i j
    refine List.filterMap_eq_nil_iff.mpr fun p hp => ?_
    by_contra hne
    have hproper := hreg.proper p hp
    have hfrom := hquiet p hp
    cases hd : p.data <;> simp only [ProperMessage, hd] at hproper <;>
      first
        | exact hfrom hproper.1.server
        | exact hne (onChannel_silent (by simp [hd, decode]) i j)
  have hpend : (∃ i, (tieBreak S k g).pend i ≠ none) ↔ Stuck S g := by
    constructor
    · rintro ⟨i, hi⟩
      obtain ⟨pc, hpc⟩ : ∃ pc, (g.server i).pending? k = some pc := by
        refine Option.ne_none_iff_exists'.mp fun h => hi ?_
        simp [tieBreak, h]
      have hm := ((Server.pending?_iff (hreg.server i).distinct).mp hpc).1
      exact ⟨hquiet, i, pc, hm, ((hreg.server i).clients pc hm).1⟩
    · rintro ⟨-, i, pc, hpc, -⟩
      have hf := (Server.pending?_iff (hreg.server i).distinct).mpr
        ⟨hpc, hg.single.pending i pc hpc⟩
      exact ⟨i, by simp [tieBreak, hf]⟩
  rw [← hpend, pending_iff_cycle (hg.create.exclusion k) hg.accounted hchan]
  exact exists_congr fun i => transGen_waits_iff hg

/-- No cycle arises while no server postpones its answer to one it waits for. -/
theorem acyclic_step (hN : 2 ≤ S.totalNumServers) (hord : S.ordered = true)
    (hg : ProgressInvariant S k g) (hacyclic : ∀ i, ¬ TransGen (WaitsFor g) i i) {a : Action}
    (ha : ∀ p, a = .arrive p → ClientCreate S p ∧ ∀ r, p.data = .request r → creates r = some k)
    (h : network S g a = .ok (g', out)) (hc : ¬ ClosesCycle ⟨g, (a, out), g'⟩) (i : ℤ) :
    ¬ TransGen (WaitsFor g') i i := by
  obtain ⟨key, hreg⟩ := hg.create.registry
  have hg' := progressInvariant_step hN hord hg ha h
  rw [← transGen_waits_iff hg']
  rcases network_refines hN hord hreg (fun p hp => (ha p hp).1) h k with he |
    ⟨p, e, rfl, -, he, hstep⟩
  · rw [he, transGen_waits_iff hg]
    exact hacyclic i
  · refine hstep.acyclic (hg.create.ledger k)
      (fun i => (transGen_waits_iff hg).not.mpr (hacyclic i)) (fun a b hab hba => hc ?_) i
    subst hab
    obtain ⟨rfl, rfl, hpost⟩ := he
    exact ⟨p, k, rfl, hpost, (transGen_waits_iff hg).mp hba⟩

/-! A single server. -/

/-- A create of a client, or an answer to one. -/
def CreateOrReply (m : Message) : Prop :=
  (∃ d, m = .reply d) ∨ ∃ r, m = .request r ∧ creates r ≠ none

theorem flush_answer {cfg : Config} {s : Server} {p : Packet} {d : ℤ}
    (h : BoxZero.flush cfg (BoxZero.answer s p d) = (t, out)) :
    t.pendingCreates = s.pendingCreates ∧ ∀ q ∈ out, CreateOrReply q.data := by
  obtain ⟨rfl, rfl⟩ := Prod.mk.inj h
  refine ⟨rfl, fun q hq => ?_⟩
  obtain ⟨r, -, rfl⟩ := List.mem_map.mp (by simpa [BoxZero.answer] using hq)
  exact Or.inl ⟨r.data, rfl⟩

/-- The only server answers a create at once. -/
theorem boxZero_single {cfg : Config} (hone : cfg.totalNumServers = 1)
    (hp : CreateOrReply p.data) (h : boxZero cfg s p = .ok (t, out)) :
    t.pendingCreates = s.pendingCreates ∧ ∀ q ∈ out, CreateOrReply q.data := by
  simp only [boxZero, BoxZero.handle] at h
  rcases hp with ⟨d, hd⟩ | ⟨r, hr, hc⟩
  · rw [hd] at h
    obtain ⟨rfl, rfl⟩ := Prod.mk.inj (Except.ok.inj h)
    exact ⟨rfl, by simp⟩
  · rw [hr] at h
    cases r <;> try exact (hc rfl).elim
    · rename_i name
      simp only [BoxZero.request, BoxZero.createLock, hone, if_true] at h
      cases hx : checkIfLockExists s name with
      | none =>
        exact flush_answer (s := (serverCreateLock s name).1)
          (by simpa only [hx, Except.map, Except.ok.injEq] using h)
      | some i => exact flush_answer (by simpa only [hx, Except.map, Except.ok.injEq] using h)
    · rename_i name
      simp only [BoxZero.request, BoxZero.createCV, hone, if_true] at h
      cases hx : checkIfCVExists s name with
      | none =>
        exact flush_answer (s := (serverCreateCV s name).1)
          (by simpa only [hx, Except.map, Except.ok.injEq] using h)
      | some i => exact flush_answer (by simpa only [hx, Except.map, Except.ok.injEq] using h)

/-- No create is pending, and only creates are handled. -/
structure NothingPending (S : Setting) (g : System) : Prop where
  net : ∀ p ∈ g.net, S.Served p ∧ CreateOrReply p.data
  pending : ∀ i, (g.server i).pendingCreates = []

theorem nothingPending_step (hN : S.totalNumServers < 2) (hg : NothingPending S g) {a : Action}
    (ha : ∀ p, a = .arrive p → ClientCreate S p) (h : network S g a = .ok (g', out)) :
    NothingPending S g' := by
  cases a with
  | arrive p =>
    obtain ⟨rfl, rfl⟩ := network_arrive_iff.mp h
    obtain ⟨-, -, hdata⟩ := ha p rfl
    refine ⟨fun q hq => ?_, hg.pending⟩
    rcases mem_post.mp hq with hq | ⟨hq, hserved⟩
    · exact hg.net q hq
    · obtain rfl := List.mem_singleton.mp hq
      exact ⟨hserved, Or.inr hdata⟩
  | handle p =>
    obtain ⟨hen, t, ht, rfl⟩ := network_handle_iff.mp h
    obtain ⟨⟨hserver, hbox⟩, hdata⟩ := hg.net p hen.1
    have hzero : p.toMailbox = 0 := by
      rcases hbox with h | ⟨-, h⟩
      · exact h
      · omega
    have hone : (S.config p.toMachine).totalNumServers = 1 := by
      rw [Setting.config_totalNumServers]
      have := hserver.1
      have := hserver.2
      omega
    rw [handlePacket, if_pos hzero] at ht
    obtain ⟨h1, h2⟩ := boxZero_single hone hdata ht
    refine ⟨fun q hq => ?_, fun i => ?_⟩
    · rcases mem_post.mp hq with hq | ⟨hq, hserved⟩
      · exact hg.net q (List.mem_of_mem_erase hq)
      · exact ⟨hserved, h2 q hq⟩
    · by_cases hi : i = p.toMachine
      · subst hi
        simpa using h1.trans (hg.pending _)
      · simpa [Function.update_of_ne hi] using hg.pending i

/-- Without a second server no create is ever pending. -/
theorem not_stuck_of_single {tr : List NetworkStep} (hN : S.totalNumServers < 2)
    (hrun : Execution (Handles (network S)) .initial tr g)
    (hclients : ∀ x ∈ tr, OnlyCreates S x) : ¬ Stuck S g := by
  have hinv : NothingPending S g := hrun.invariant_of_cond ⟨by simp [System.initial], fun i => rfl⟩
    (fun _ hb hst hx => nothingPending_step hN hb hx hst) hclients
  rintro ⟨-, j, pc, hpc, -⟩
  simp [hinv.pending j] at hpc

/-- The creates of one name never get stuck in a run in which no server postpones its
answer to a server that it waits for itself. -/
theorem creates_never_stuck {tr : List NetworkStep} (hord : S.ordered = true)
    (hrun : Execution (Handles (network S)) .initial tr g)
    (hclients : ∀ x ∈ tr, OnlyCreatesOf S k x) (hc : ∀ x ∈ tr, ¬ ClosesCycle x) :
    ¬ Stuck S g := by
  rcases Nat.lt_or_ge S.totalNumServers 2 with hN | hN
  · exact not_stuck_of_single hN hrun fun x hx p hp => (hclients x hx p hp).1
  · have hinv : ProgressInvariant S k g ∧ ∀ i, ¬ TransGen (WaitsFor g) i i := by
      refine hrun.invariant_of_cond
        (P := fun g => ProgressInvariant S k g ∧ ∀ i, ¬ TransGen (WaitsFor g) i i)
        ⟨progressInvariant_initial, fun i hi => ?_⟩ (fun x hb hst hx => ?_)
        fun x hx => And.intro (hclients x hx) (hc x hx)
      · obtain ⟨j, ⟨pi, hpi, -⟩, -⟩ := TransGen.head'_iff.mp hi
        simp [System.initial, Server.initial] at hpi
      · exact ⟨progressInvariant_step hN hord hb.1 hx.1 hst,
          acyclic_step hN hord hb.1 hb.2 hx.1 hst hx.2⟩
    intro hstuck
    obtain ⟨i, hi⟩ := (stuck_iff_cycle hinv.1 hstuck.1).mp hstuck
    exact hinv.2 i hi

/-- The server that asks has postponed no answer, or the one that is asked does not wait for an
answer to a smaller number. -/
def waitsForNobody (x : NetworkStep) : Bool :=
  match x.event.1 with
  | .handle p =>
    match p.data with
    | .doYouHaveName .. =>
      (x.before.server p.fromMachine).pendingCreates.all (fun pc => pc.serverResponseQueue.isEmpty) ||
        (decide (p.fromMachine ≤ p.toMachine) &&
          (x.before.server p.toMachine).pendingCreates.all fun pc => !pc.responseTracker p.fromMachine)
    | _ => true
  | _ => true

theorem not_closesCycle_of_waitsForNobody {x : NetworkStep} (h : waitsForNobody x = true) :
    ¬ ClosesCycle x := by
  rintro ⟨p, k, hx, ⟨⟨id, hp⟩, -, pc, hpc, hpost⟩, hwaits⟩
  simp only [waitsForNobody, hx, hp, Bool.or_eq_true, Bool.and_eq_true, List.all_eq_true,
    List.isEmpty_iff, decide_eq_true_eq, Bool.not_eq_true'] at h
  rcases h with hnone | ⟨hle, htracker⟩
  · obtain ⟨-, -, -, -, pj, hpj, r, hr, -⟩ := TransGen.tail'_iff.mp hwaits
    simp [hnone pj hpj] at hr
  · rcases hpost with htrue | hlt
    · simp [htracker pc (List.mem_of_find?_eq_some hpc)] at htrue
    · exact absurd hle hlt.not_ge

/-- Of two servers that create a name at the same time, the second waits for the first, which has
postponed its answer. -/
theorem twinCreates_not_stuck : ∃ tr g,
    Execution (Handles (network ⟨2, true, false⟩)) .initial tr g ∧
      tr.map (fun x => x.event.1) = twinCreates ∧
      (∃ x ∈ tr, WaitsFor x.after 1 0) ∧ (∀ x ∈ tr, ¬ ClosesCycle x) ∧
      ¬ Stuck ⟨2, true, false⟩ g := by
  obtain ⟨tr, g, hrun, hmap, htest⟩ := exists_of_trace (network ⟨2, true, false⟩) .initial
    twinCreates (fun r => r.1.all waitsForNobody && r.1.any fun x =>
      (x.after.server 1).pendingCreates.any fun pi => (x.after.server 0).pendingCreates.any fun pj =>
        pj.serverResponseQueue.any fun r => decide (r.replyMachine = 1 ∧ r.replyMessageID = pi.ID))
    (by decide +kernel)
  simp only [Bool.and_eq_true, List.all_eq_true, List.any_eq_true, decide_eq_true_eq] at htest
  obtain ⟨hall, hwaits⟩ := htest
  have hcycle : ∀ x ∈ tr, ¬ ClosesCycle x := fun x hx =>
    not_closesCycle_of_waitsForNobody (hall x hx)
  refine ⟨tr, g, hrun, hmap, hwaits, hcycle,
    creates_never_stuck (k := (.lock, [97])) rfl hrun ?_ hcycle⟩
  intro x hx p hp
  have ha := forall_inputs (Q := fun a => ∀ p, a = .arrive p →
      ∃ machine mailbox, p = clientCreate machine ⟨2, mailbox⟩ [97]) hmap (by
    intro a ha q hq
    subst hq
    simp only [twinCreates, List.mem_cons, Action.arrive.injEq, reduceCtorEq, List.not_mem_nil,
      or_false] at ha
    rcases ha with rfl | rfl
    · exact ⟨0, 0, rfl⟩
    · exact ⟨1, 1, rfl⟩) x hx p hp
  obtain ⟨machine, mailbox, rfl⟩ := ha
  refine ⟨⟨fun h => absurd h.2 (lt_irrefl _), rfl, _, rfl, by decide⟩, fun r hr => ?_⟩
  obtain rfl := Message.request.inj hr
  rfl

/-- Three servers create one name. Server 0 denies it to server 2 and starts itself; then
2 postpones its answer to 0, 1 its answer to 2, and 0 its answer to 1. -/
def circularCreates : List Action :=
  let c (machine mailbox : ℤ) : Packet := clientCreate machine ⟨3, mailbox⟩ [97]
  let ask (i j : ℤ) : Packet := ⟨j, 1, i, 1, .doYouHaveName .lock 0 [97]⟩
  let deny (i j : ℤ) : Packet := ⟨j, 1, i, 1, .doNotHaveName .lock 0⟩
  [.arrive (c 2 2), .handle (c 2 2), .handle { c 2 2 with toMailbox := 1 }, .handle (ask 2 0),
    .arrive (c 0 0), .handle (c 0 0), .handle { c 0 0 with toMailbox := 1 },
    .arrive (c 1 1), .handle (c 1 1), .handle { c 1 1 with toMailbox := 1 },
    .handle (ask 2 1), .handle (ask 1 0), .handle (deny 0 2), .handle (ask 0 2),
    .handle (ask 0 1), .handle (deny 1 0), .handle (ask 1 2), .handle (deny 2 1)]

/-- No message is left, and all three servers wait for ever. -/
theorem circularCreates_stuck : ∃ tr g,
    Execution (Handles (network ⟨3, true, false⟩)) .initial tr g ∧
      (∀ x ∈ tr, OnlyCreatesOf ⟨3, true, false⟩ (.lock, [97]) x) ∧
      g.net = [] ∧ Stuck ⟨3, true, false⟩ g := by
  obtain ⟨tr, g, hrun, hmap, htest⟩ := exists_of_trace (network ⟨3, true, false⟩) .initial
    circularCreates (fun r => r.2.net.isEmpty && (r.2.server 0).pendingCreates.any fun pc =>
      !pc.waitingClients.isEmpty) (by decide +kernel)
  simp only [Bool.and_eq_true, List.isEmpty_iff, List.any_eq_true, Bool.not_eq_true',
    List.isEmpty_eq_false_iff] at htest
  obtain ⟨hnet, pc, hpc, hne⟩ := htest
  refine ⟨tr, g, hrun, fun x hx p hp => ?_, hnet, by simp [hnet], 0, pc, hpc, hne⟩
  have ha := forall_inputs (Q := fun a => ∀ p, a = .arrive p →
      ∃ machine mailbox, p = clientCreate machine ⟨3, mailbox⟩ [97]) hmap (by
    intro a ha q hq
    subst hq
    simp only [circularCreates, List.mem_cons, Action.arrive.injEq, reduceCtorEq,
      List.not_mem_nil, or_false, false_or] at ha
    rcases ha with rfl | rfl | rfl
    · exact ⟨2, 2, rfl⟩
    · exact ⟨0, 0, rfl⟩
    · exact ⟨1, 1, rfl⟩) x hx p hp
  obtain ⟨machine, mailbox, rfl⟩ := ha
  refine ⟨⟨fun h => absurd h.2 (lt_irrefl _), rfl, _, rfl, by decide⟩, fun r hr => ?_⟩
  obtain rfl := Message.request.inj hr
  rfl

end Nachos.Network
