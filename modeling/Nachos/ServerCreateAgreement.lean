import Nachos.ServerCreateRefinement

/-! Whatever clients create on whichever servers, no name ever has two locks or two
conditions on different servers. -/
namespace Nachos.Network
open SlotTables Executions BoxOne TieBreak

variable {S : Setting} {g g' : System} {out : List Packet}

/-- Objects of the same kind on different servers have different names. -/
def NamesUnique (g : System) : Prop :=
  ∀ i j, i ≠ j → ∀ x y,
    (∀ e f, (g.server i).lock? x = some e → (g.server j).lock? y = some f →
      e.lock.name ≠ f.lock.name) ∧
    (∀ e f, (g.server i).condition? x = some e → (g.server j).condition? y = some f →
      e.condition.name ≠ f.condition.name)

/-- Only creates arrive from clients. -/
def OnlyCreates (S : Setting) (x : NetworkStep) : Prop :=
  ∀ p, x.event.1 = .arrive p → ClientCreate S p

structure CreateInvariant (S : Setting) (g : System) : Prop where
  registry : ∃ key, Registry S key g
  ledger : ∀ k, Ledger S.servers (tieBreak S k g)
  exclusion : ∀ k, Exclusion S.servers (tieBreak S k g)

theorem tieBreak_initial (k : StructureType × Name) :
    tieBreak S k .initial = TieBreak.State.initial := by
  obtain ⟨type, name⟩ := k
  ext i
  · cases type <;> simp [tieBreak, System.initial, Server.initial, Server.Holds, checkIfExists,
      checkIfLockExists, checkIfCVExists, checkIfMVExists, search, TieBreak.State.initial]
  · simp [tieBreak, System.initial, Server.initial, Server.pending?, TieBreak.State.initial]
  · simp [tieBreak, System.initial, Server.initial, TieBreak.State.initial]
  · simp [tieBreak, System.initial, channel, TieBreak.State.initial]

/-- A client's message says nothing between servers. -/
theorem tieBreak_arrive {p : Packet} (hp : ClientCreate S p) (k : StructureType × Name) :
    tieBreak S k ⟨g.server, S.post g.net [p]⟩ = tieBreak S k g := by
  obtain ⟨-, -, r, hr, -⟩ := hp
  have hchan : channel k (S.post g.net [p]) = channel k g.net := by
    funext i j
    unfold Setting.post
    rw [channel_append]
    have hnone : channel k ([p].filter fun p => S.Served p) i j = [] := by
      refine List.filterMap_eq_nil_iff.mpr fun q hq => ?_
      obtain rfl := List.mem_singleton.mp (List.mem_of_mem_filter hq)
      exact onChannel_silent (by simp [hr, decode]) i j
    rw [hnone, List.append_nil]
  simp only [tieBreak, hchan]

/-- Each action is a step of the tie break for each name, or none. -/
theorem network_refines (hN : 2 ≤ S.totalNumServers) (hord : S.ordered = true)
    {key : ℤ → ℕ → StructureType × Name} (hg : Registry S key g) {a : Action}
    (ha : ∀ p, a = .arrive p → ClientCreate S p) (h : network S g a = .ok (g', out))
    (k : StructureType × Name) :
    tieBreak S k g' = tieBreak S k g ∨
      ∃ p e, a = .handle p ∧ p ∈ g.net ∧ EventOf k g p (g'.server p.toMachine) e ∧
        Step S.servers e (tieBreak S k g) (tieBreak S k g') := by
  cases a with
  | arrive p =>
    obtain ⟨rfl, -⟩ := network_arrive_iff.mp h
    exact Or.inl (tieBreak_arrive (ha p rfl) k)
  | handle p =>
    obtain ⟨hen, t, ht, rfl⟩ := network_handle_iff.mp h
    have hmove := handlePacket_move (by omega) (hg.server p.toMachine) (hg.proper p hen.1) rfl ht
    obtain ⟨e, he, hstep⟩ := hmove.refines hN hord hg hen k
    exact Or.inr ⟨p, e, rfl, hen.1, by simpa using he, hstep⟩

theorem createInvariant_initial : CreateInvariant S .initial := by
  refine ⟨⟨fun _ _ => (.lock, []), registry_initial⟩, fun k => ?_, fun k => ?_⟩
  · rw [tieBreak_initial]
    exact ledger_initial
  · rw [tieBreak_initial]
    exact exclusion_initial

theorem createInvariant_step (hN : 2 ≤ S.totalNumServers) (hord : S.ordered = true)
    (hg : CreateInvariant S g) {a : Action} (ha : ∀ p, a = .arrive p → ClientCreate S p)
    (h : network S g a = .ok (g', out)) : CreateInvariant S g' := by
  obtain ⟨key, hreg⟩ := hg.registry
  have hcard : 2 ≤ S.servers.card := by rwa [Setting.card_servers]
  refine ⟨registry_step hN hreg ha h, fun k => ?_, fun k => ?_⟩
  · rcases network_refines hN hord hreg ha h k with he | ⟨p, e, -, -, -, hstep⟩
    · exact he ▸ hg.ledger k
    · exact hstep.ledger (hg.ledger k)
  · rcases network_refines hN hord hreg ha h k with he | ⟨p, e, -, -, -, hstep⟩
    · exact he ▸ hg.exclusion k
    · exact hstep.exclusion hcard (hg.ledger k) (hg.exclusion k)

theorem holds_of_lock {s : Server} {i : ℤ} {e : ServerLockEntry} (h : s.lock? i = some e) :
    s.Holds (.lock, e.lock.name) := by
  refine Option.isSome_iff_ne_none.mp (search_isSome_iff.mpr ⟨i, e, h, ?_⟩)
  simp

theorem holds_of_condition {s : Server} {i : ℤ} {e : ServerConditionEntry}
    (h : s.condition? i = some e) : s.Holds (.cv, e.condition.name) := by
  refine Option.isSome_iff_ne_none.mp (search_isSome_iff.mpr ⟨i, e, h, ?_⟩)
  simp

theorem CreateInvariant.namesUnique (hg : CreateInvariant S g) : NamesUnique g := by
  intro i j hij x y
  refine ⟨fun e f he hf hname => hij ?_, fun e f he hf hname => hij ?_⟩
  · exact (hg.exclusion (.lock, f.lock.name)).unique i j (hname ▸ holds_of_lock he)
      (holds_of_lock hf)
  · exact (hg.exclusion (.cv, f.condition.name)).unique i j (hname ▸ holds_of_condition he)
      (holds_of_condition hf)

/-- In every state that a run of creates reaches, with FIFO channels between the servers,
each name is on one server at most. -/
theorem creates_agree {tr : List NetworkStep} (hN : 2 ≤ S.totalNumServers)
    (hord : S.ordered = true) (hrun : Execution (Handles (network S)) .initial tr g)
    (hclients : ∀ x ∈ tr, OnlyCreates S x) : NamesUnique g :=
  (hrun.invariant_of_cond createInvariant_initial
    (fun _ hb hst hc => createInvariant_step hN hord hb hc hst) hclients).namesUnique

/-- The client at this address wants the lock created by this machine. -/
def clientCreate (machine : ℤ) (client : ClientRequest) (name : Name) : Packet :=
  ⟨machine, 0, client.machineID, client.mailboxNumber, .request (.createLock name)⟩

/-- Two servers create one name at the same time. -/
def twinCreates : List Action :=
  [.arrive (clientCreate 0 ⟨2, 0⟩ [97]), .arrive (clientCreate 1 ⟨2, 1⟩ [97]),
    .handle (clientCreate 0 ⟨2, 0⟩ [97]), .handle { clientCreate 0 ⟨2, 0⟩ [97] with toMailbox := 1 },
    .handle (clientCreate 1 ⟨2, 1⟩ [97]), .handle { clientCreate 1 ⟨2, 1⟩ [97] with toMailbox := 1 },
    .handle ⟨0, 1, 1, 1, .doYouHaveName .lock 0 [97]⟩,
    .handle ⟨1, 1, 0, 1, .doYouHaveName .lock 0 [97]⟩,
    .handle ⟨0, 1, 1, 1, .doNotHaveName .lock 0⟩, .handle ⟨1, 1, 0, 1, .haveName .lock 0⟩,
    .handle { clientCreate 0 ⟨2, 1⟩ [97] with toMailbox := 1 }]

/-- Machine 0 creates the lock, and the client of machine 1 is sent there. -/
theorem twinCreates_agree : ∃ tr g, Execution (Handles (network ⟨2, true, false⟩)) .initial tr g ∧
    tr.map (fun x => x.event.1) = twinCreates ∧ (g.server 0).lock? 0 ≠ none ∧ NamesUnique g := by
  obtain ⟨tr, g, hrun, hmap, htest⟩ := exists_of_trace (network ⟨2, true, false⟩) .initial
    twinCreates (fun r => (r.2.server 0).lock? 0 ≠ none) (by decide +kernel)
  refine ⟨tr, g, hrun, hmap, by simpa using htest, creates_agree (by decide) rfl hrun ?_⟩
  intro x hx p hp
  have ha := forall_inputs (Q := fun a => ∀ p, a = .arrive p → ClientCreate ⟨2, true, false⟩ p)
    hmap (by
      intro a ha q hq
      subst hq
      simp only [twinCreates, List.mem_cons, Action.arrive.injEq, reduceCtorEq, List.not_mem_nil,
        or_false] at ha
      rcases ha with rfl | rfl
      · exact ⟨by decide, rfl, _, rfl, by decide⟩
      · exact ⟨by decide, rfl, _, rfl, by decide⟩) x hx
  exact ha p hp

end Nachos.Network
