import Nachos.ServerQueries
import Nachos.ServerNetwork

/-! The count of negative answers to a query for an object, over every list of queries under
way and every order of the answers. -/
namespace Nachos.Network
open BoxOne Executions

variable {S : Setting} {cfg : Config} {s t : Server} {p : Packet} {out : List Packet} {id : ℕ}

/-- The queries under way when one more server denies the object of this one: it has one
more answer, and with that of the last server it is over. -/
def countAnswer (N id : ℕ) (queries : List QueryStatus) : List QueryStatus :=
  queries.filterMap fun qs =>
    if qs.id = id then
      if qs.numResponsesReceived + 1 = N - 1 then none
      else some { qs with numResponsesReceived := qs.numResponsesReceived + 1 }
    else some qs

def Server.countAnswer (s : Server) (N id : ℕ) : Server :=
  { s with queryQueue := Network.countAnswer N id s.queryQueue }

/-- A negative answer at mailbox 1 counts for its query, and does nothing else. -/
def CountsAnswer (S : Setting) (x : NetworkStep) : Prop :=
  ∀ p type id, x.event.1 = .handle p → p.toMailbox ≠ 0 → p.data = .doNotHaveObject type id →
    x.after.server p.toMachine =
      (x.before.server p.toMachine).countAnswer S.totalNumServers id ∧ x.event.2 = []

/-- The answer belongs to no query, or to the first one, and not as the last. -/
def ForFirstQuery (N id : ℕ) (queries : List QueryStatus) : Prop :=
  (∀ qs ∈ queries, qs.id ≠ id) ∨
    ∃ qs ∈ queries.head?, qs.id = id ∧ qs.numResponsesReceived + 1 ≠ N - 1

/-- The queries of a server have different ids, from the past. -/
structure Server.QueriesNumbered (s : Server) : Prop where
  distinct : (s.records.map Prod.snd).Nodup
  past : ∀ x ∈ s.records, x.2 < s.nextQueryID
  waiting : WaitingCreates s.pendingCreates

theorem Server.QueriesNumbered.initial : Server.initial.QueriesNumbered :=
  ⟨List.nodup_nil, by simp [Server.initial, Server.records], by simp [Server.initial, WaitingCreates]⟩

/-! One answer. -/

variable {N : ℕ} {queries : List QueryStatus} {qs : QueryStatus}

theorem countAnswer_cons :
    countAnswer N id (qs :: queries) =
      if qs.id = id then
        if qs.numResponsesReceived + 1 = N - 1 then countAnswer N id queries
        else { qs with numResponsesReceived := qs.numResponsesReceived + 1 } ::
          countAnswer N id queries
      else qs :: countAnswer N id queries := by
  unfold countAnswer
  split_ifs with hid hlast
  · exact List.filterMap_cons_none (by rw [if_pos hid, if_pos hlast])
  · exact List.filterMap_cons_some (by rw [if_pos hid, if_neg hlast])
  · exact List.filterMap_cons_some (if_neg hid)

theorem countAnswer_eq_self (h : ∀ qs ∈ queries, qs.id ≠ id) : countAnswer N id queries = queries := by
  induction queries with
  | nil => rfl
  | cons qs queries ih =>
    obtain ⟨hqs, hrest⟩ := List.forall_mem_cons.mp h
    rw [countAnswer_cons, if_neg hqs, ih hrest]

/-- A query of that id is changed or gone. -/
theorem countAnswer_ne (hqs : qs ∈ queries) (hid : qs.id = id) :
    countAnswer N id queries ≠ queries := by
  induction queries with
  | nil => cases hqs
  | cons first queries ih =>
    rw [countAnswer_cons]
    split_ifs with hfirst hlast
    · intro he
      have hle : (countAnswer N id queries).length ≤ queries.length := List.length_filterMap_le _ _
      rw [he] at hle
      simp at hle
    · intro he
      have hn := congrArg QueryStatus.numResponsesReceived (List.cons.inj he).1
      simp at hn
    · have hrest : qs ∈ queries := by
        rcases List.mem_cons.mp hqs with rfl | h
        · exact absurd hid hfirst
        · exact h
      exact fun he => ih hrest (List.cons.inj he).2

theorem doNotHaveObject_eq (s : Server) (id : ℕ) :
    doNotHaveObject s id = { s with queryQueue := (doNotHaveObject s id).queryQueue } := by
  unfold doNotHaveObject
  split
  · rfl
  · split_ifs <;> rfl

/-- The loop of the source ends at the first query. -/
theorem doNotHaveObject_counts_iff (hd : (s.queryQueue.map QueryStatus.id).Nodup) :
    doNotHaveObject s id = s.countAnswer N id ↔ ForFirstQuery N id s.queryQueue := by
  have hqueue : doNotHaveObject s id = s.countAnswer N id ↔
      (doNotHaveObject s id).queryQueue = countAnswer N id s.queryQueue := by
    refine ⟨fun h => congrArg Server.queryQueue h, fun h => ?_⟩
    rw [doNotHaveObject_eq, h, Server.countAnswer]
  rw [hqueue]
  unfold doNotHaveObject ForFirstQuery
  cases hq : s.queryQueue with
  | nil => simp [hq, countAnswer]
  | cons qs rest =>
    rw [hq, List.map_cons, List.nodup_cons] at hd
    have hrest : ∀ b ∈ rest, b.id ≠ qs.id := fun b hb he =>
      hd.1 (he ▸ List.mem_map_of_mem hb)
    dsimp only
    rw [countAnswer_cons]
    split_ifs with hid hlast
    · rw [countAnswer_eq_self fun b hb => hid ▸ hrest b hb]
      simp [hid, hlast]
    · rw [countAnswer_eq_self fun b hb => hid ▸ hrest b hb]
      simp [hid, hlast]
    · rw [hq]
      constructor
      · intro he
        refine .inl (List.forall_mem_cons.mpr ⟨hid, fun b hb hbid => ?_⟩)
        exact countAnswer_ne hb hbid (List.cons.inj he).2.symm
      · rintro (h | ⟨first, hfirst, hfid, -⟩)
        · rw [countAnswer_eq_self (List.forall_mem_cons.mp h).2]
        · obtain rfl : qs = first := by simpa using hfirst
          exact absurd hfid hid

/-! Numbers. -/

theorem QueryMove.queriesNumbered {j : ℤ} (h : QueryMove S j s p t out) (hs : s.QueriesNumbered) :
    t.QueriesNumbered := by
  have hord := h.orderly
  have hkept : t.records = s.records → t.QueriesNumbered := fun hrec =>
    ⟨hrec ▸ hs.distinct, fun x hx => (hs.past x (hrec ▸ hx)).trans_le hord.next, hord.waiting hs.waiting⟩
  cases h with
  | passed _ _ _ _ hk => exact hkept hk.records
  | answered => exact hs
  | other _ hrec => exact hkept hrec
  | asked _ _ _ _ hrec hnext =>
    refine ⟨?_, fun x hx => ?_, hord.waiting hs.waiting⟩
    · rw [hrec, List.map_append, List.nodup_append]
      refine ⟨hs.distinct, List.nodup_singleton _, ?_⟩
      intro a ha b hb
      obtain ⟨x, hx, rfl⟩ := List.mem_map.mp ha
      obtain rfl : b = s.nextQueryID := by simpa using hb
      exact (hs.past x hx).ne
    · rw [hrec] at hx
      rcases List.mem_append.mp hx with hx | hx
      · exact (hs.past x hx).trans hnext
      · obtain rfl := List.mem_singleton.mp hx
        exact hnext
  | @forwarded type id pk l₁ l₂ _ _ _ _ hrec ht =>
    have hsub : t.records.Sublist s.records := by
      rw [hrec, ht]
      exact (List.Sublist.refl l₁).append (List.sublist_cons_self _ l₂)
    exact ⟨hs.distinct.sublist (hsub.map _),
      fun x hx => (hs.past x (hsub.subset hx)).trans_le hord.next, hord.waiting hs.waiting⟩

/-! Runs. -/

/-- The condition, of a step of the servers. -/
def AnswersFirst (S : Setting) (x : NetworkStep) : Prop :=
  ∀ p type id, x.event.1 = .handle p → p.toMailbox ≠ 0 → p.data = .doNotHaveObject type id →
    ForFirstQuery S.totalNumServers id (x.before.server p.toMachine).queryQueue

theorem handlePacket_negative {type : StructureType} (hb : p.toMailbox ≠ 0)
    (hp : p.data = .doNotHaveObject type id) :
    handlePacket S s p = .ok (doNotHaveObject s id, []) := by
  simp [handlePacket, hb, boxOne, hp]

theorem countsAnswer_iff {x : NetworkStep} (hx : Handles (network S) x.before x.event x.after)
    (hs : ∀ j, (x.before.server j).QueriesNumbered) : CountsAnswer S x ↔ AnswersFirst S x := by
  have hstep : ∀ p type id, x.event.1 = .handle p → p.toMailbox ≠ 0 →
      p.data = .doNotHaveObject type id → x.event.2 = [] ∧
      (x.after.server p.toMachine =
          (x.before.server p.toMachine).countAnswer S.totalNumServers id ↔
        ForFirstQuery S.totalNumServers id (x.before.server p.toMachine).queryQueue) := by
    intro p type id he hb hp
    unfold Handles at hx
    rw [he] at hx
    obtain ⟨-, t, ht, hafter⟩ := network_handle_iff.mp hx
    rw [handlePacket_negative hb hp] at ht
    obtain ⟨rfl, hout⟩ := Prod.mk.inj (Except.ok.inj ht)
    have hd : ((x.before.server p.toMachine).queryQueue.map QueryStatus.id).Nodup := by
      simpa [Server.records, Function.comp_def] using (hs p.toMachine).distinct
    have hself : x.after.server p.toMachine = doNotHaveObject (x.before.server p.toMachine) id := by
      rw [hafter]
      exact Function.update_self ..
    rw [hself]
    exact ⟨hout.symm, doNotHaveObject_counts_iff hd⟩
  constructor
  · intro h p type id he hb hp
    exact (hstep p type id he hb hp).2.mp (h p type id he hb hp).1
  · intro h p type id he hb hp
    exact ⟨(hstep p type id he hb hp).2.mpr (h p type id he hb hp), (hstep p type id he hb hp).1⟩

/-- From any queries under way, in every run of several servers. -/
theorem answers_counted_iff (hN : 1 < S.totalNumServers) {g₀ g : System}
    (hg : ∀ j, (g₀.server j).QueriesNumbered) {tr : List NetworkStep}
    (h : Execution (Handles (network S)) g₀ tr g) :
    (∀ x ∈ tr, CountsAnswer S x) ↔ ∀ x ∈ tr, AnswersFirst S x := by
  refine h.forall_iff (P := fun g => ∀ j, (g.server j).QueriesNumbered) hg
    (fun x hs hx => countsAnswer_iff hx hs) fun x hs hx _ => ?_
  exact network_forall_servers (P := fun _ s => s.QueriesNumbered) hx hs fun s p t out hs ht =>
    (handlePacket_queryMove hN.ne' hs.waiting ht).queriesNumbered hs

instance (N id : ℕ) (queries : List QueryStatus) : Decidable (ForFirstQuery N id queries) :=
  inferInstanceAs (Decidable (_ ∨ _))

/-- A client asks server 0 for a lock of server 1, and the highest server denies it. -/
def deniedLock (last : ℤ) : List Action :=
  [.arrive ⟨0, 0, 5, 9, .request (.acquire 700)⟩, .handle ⟨0, 0, 5, 9, .request (.acquire 700)⟩,
    .handle ⟨0, 1, 5, 9, .request (.acquire 700)⟩, .handle ⟨last, 1, 0, 1, .doYouHave .lock 0 700⟩,
    .handle ⟨0, 1, last, 1, .doNotHaveObject .lock 0⟩]

/-- Of three servers, one more is to answer. -/
theorem answers_counted_three :
    ∃ (tr : List NetworkStep) (g : System),
      Execution (Handles (network ⟨3, false, false⟩)) .initial tr g ∧
      (g.server 0).queryQueue.map QueryStatus.numResponsesReceived = [1] ∧
      ∀ x ∈ tr, CountsAnswer ⟨3, false, false⟩ x := by
  obtain ⟨tr, g, h, -, htest⟩ := exists_of_trace (network ⟨3, false, false⟩) .initial (deniedLock 2)
    (fun r => decide ((r.2.server 0).queryQueue.map QueryStatus.numResponsesReceived = [1]) &&
      r.1.all fun x => match x.event.1 with
        | .handle ⟨m, _, _, _, .doNotHaveObject _ id⟩ =>
          decide (ForFirstQuery 3 id (x.before.server m).queryQueue)
        | _ => true) (by decide +kernel)
  rw [Bool.and_eq_true, List.all_eq_true] at htest
  refine ⟨tr, g, h, of_decide_eq_true htest.1, ?_⟩
  refine (answers_counted_iff (by decide) (fun _ => .initial) h).mpr fun x hx p type id he _ hp => ?_
  have hcond := htest.2 x hx
  obtain ⟨m, b, m', b', data⟩ := p
  obtain rfl : data = .doNotHaveObject type id := hp
  simp only [he, decide_eq_true_eq] at hcond
  exact hcond

/-- Of two servers the other one denies the lock, and the query stays. -/
theorem denied_query_stays :
    ∃ (tr : List NetworkStep) (g : System),
      Execution (Handles (network ⟨2, false, false⟩)) .initial tr g ∧
      ¬ ∀ x ∈ tr, CountsAnswer ⟨2, false, false⟩ x := by
  obtain ⟨tr, g, h, -, htest⟩ := exists_of_trace (network ⟨2, false, false⟩) .initial (deniedLock 1)
    (fun r => r.1.any fun x => match x.event.1 with
      | .handle ⟨0, 1, _, _, .doNotHaveObject _ id⟩ =>
        decide ((x.after.server 0).queryQueue ≠ countAnswer 2 id (x.before.server 0).queryQueue)
      | _ => false) (by decide +kernel)
  obtain ⟨x, hx, hbad⟩ := List.any_eq_true.mp htest
  refine ⟨tr, g, h, fun hlaw => ?_⟩
  split at hbad
  · rename_i m b type id he
    have hcounts := (hlaw x hx _ type id he one_ne_zero rfl).1
    exact of_decide_eq_true hbad (congrArg Server.queryQueue hcounts)
  · cases hbad

end Nachos.Network
