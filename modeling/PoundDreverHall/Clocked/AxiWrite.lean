import Mathlib.Data.List.Basic
import Mathlib.Data.List.Induction
import Mathlib.Logic.Function.Iterate
import Mathlib.Tactic.Common

/-!
# Clocked systems - burst traces of an AXI write master

What a slave sees of a write master is a sequence of time-stamped handshakes
on the address, data and response channels.  This file says what a
well-formed trace is: complete bursts of a fixed number of beats, followed by
at most one burst that is still open.  It also fixes how the address of one
burst determines the next, so that coverage of an address range becomes a
statement about lists.

Main results:

- Definition {lit}`traceEvents`: the handshakes of complete bursts and of an
  open one; {lit}`traceEvents_accept`, {lit}`traceEvents_beat` and
  {lit}`traceEvents_respond` extend it by one handshake.
- Theorem {lit}`traceEvents_injective`: the handshakes determine the bursts.
- Theorem {lit}`Follows.okayAddrs`: bursts that retry errors and advance on
  success acknowledge consecutive addresses, each once and in order.
- Theorem {lit}`transferred_traceEvents`: the words a slave stores are the beats
  of the bursts, at consecutive addresses.
- Theorem {lit}`Prefetched.inOrder_iff`: a master that reads its data through
  two registers sends the words in order exactly if they are all equal.
-/

namespace AxiWrite

variable {A D R : Type*}

/-- A handshake on one of the three write channels. -/
inductive Event (A D R : Type*) where
  | aw (addr : A)
  | w (data : D) (last : Bool)
  | b (resp : R)
deriving DecidableEq, Repr

/-- An accepted data beat and the cycle of its handshake. -/
structure Beat (D : Type*) where
  time : ℕ
  data : D
deriving DecidableEq, Repr

/-- A burst whose address is accepted and whose response is outstanding. -/
structure OpenBurst (n : ℕ) (A D : Type*) where
  addr : A
  awTime : ℕ
  beats : List (Beat D)
  length_le : beats.length ≤ n

/-- A complete burst: exactly {lit}`n` beats, then the response. -/
structure Burst (n : ℕ) (A D R : Type*) where
  addr : A
  awTime : ℕ
  beats : List (Beat D)
  length_eq : beats.length = n
  resp : R
  respTime : ℕ

/-! ## Handshakes of bursts -/

/-- Handshakes of a burst up to its last accepted beat.  Only beat number
{lit}`n` carries the last flag. -/
def dataEvents (n : ℕ) (addr : A) (awTime : ℕ) (beats : List (Beat D)) :
    List (ℕ × Event A D R) :=
  (awTime, .aw addr) ::
    beats.mapIdx fun k beat => (beat.time, .w beat.data (k + 1 == n))

/-- Handshakes of an open burst so far. -/
def OpenBurst.events {n : ℕ} (o : OpenBurst n A D) : List (ℕ × Event A D R) :=
  dataEvents n o.addr o.awTime o.beats

/-- Handshakes of a complete burst. -/
def Burst.events {n : ℕ} (b : Burst n A D R) : List (ℕ × Event A D R) :=
  dataEvents n b.addr b.awTime b.beats ++ [(b.respTime, .b b.resp)]

/-- Handshakes of complete bursts followed by an open one, if there is one. -/
def traceEvents {n : ℕ} (bs : List (Burst n A D R)) (cur : Option (OpenBurst n A D)) :
    List (ℕ × Event A D R) :=
  bs.flatMap Burst.events ++ cur.elim [] OpenBurst.events

@[simp]
theorem traceEvents_nil {n : ℕ} :
    traceEvents ([] : List (Burst n A D R)) none = [] :=
  rfl

/-- The burst opened by an address handshake. -/
def OpenBurst.accept (n : ℕ) (addr : A) (awTime : ℕ) : OpenBurst n A D where
  addr := addr
  awTime := awTime
  beats := []
  length_le := Nat.zero_le n

/-- An open burst extended by one beat. -/
def OpenBurst.beat {n : ℕ} (o : OpenBurst n A D) (beat : Beat D)
    (h : o.beats.length < n) : OpenBurst n A D where
  addr := o.addr
  awTime := o.awTime
  beats := o.beats ++ [beat]
  length_le := by
    rw [List.length_append]
    exact h

/-- An open burst with all its beats, completed by its response. -/
def OpenBurst.respond {n : ℕ} (o : OpenBurst n A D) (resp : R) (respTime : ℕ)
    (h : o.beats.length = n) : Burst n A D R where
  addr := o.addr
  awTime := o.awTime
  beats := o.beats
  length_eq := h
  resp := resp
  respTime := respTime

theorem traceEvents_accept {n : ℕ} (bs : List (Burst n A D R)) (addr : A) (t : ℕ) :
    traceEvents bs (some (OpenBurst.accept (D := D) n addr t)) =
      traceEvents bs none ++ [(t, .aw addr)] := by
  simp [traceEvents, OpenBurst.accept, OpenBurst.events, dataEvents]

theorem traceEvents_beat {n : ℕ} (bs : List (Burst n A D R)) (o : OpenBurst n A D)
    (beat : Beat D) (h : o.beats.length < n) :
    traceEvents bs (some (o.beat beat h)) =
      traceEvents bs (some o) ++
        [(beat.time, .w beat.data (o.beats.length + 1 == n))] := by
  simp [traceEvents, OpenBurst.beat, OpenBurst.events, dataEvents, List.mapIdx_concat]

theorem traceEvents_respond {n : ℕ} (bs : List (Burst n A D R)) (o : OpenBurst n A D)
    (resp : R) (t : ℕ) (h : o.beats.length = n) :
    traceEvents (bs ++ [o.respond resp t h]) none =
      traceEvents bs (some o) ++ [(t, .b resp)] := by
  simp [traceEvents, OpenBurst.respond, OpenBurst.events, Burst.events]

/-! ## The bursts behind a trace -/

@[ext]
theorem Burst.ext {n : ℕ} {b b' : Burst n A D R} (haddr : b.addr = b'.addr)
    (haw : b.awTime = b'.awTime) (hbeats : b.beats = b'.beats) (hresp : b.resp = b'.resp)
    (htime : b.respTime = b'.respTime) : b = b' := by
  cases b
  cases b'
  simp_all

theorem Burst.length_events {n : ℕ} (b : Burst n A D R) : b.events.length = n + 2 := by
  simp [Burst.events, dataEvents, b.length_eq]

/-- A burst can be read back from its handshakes. -/
theorem Burst.events_injective {n : ℕ} :
    Function.Injective (Burst.events : Burst n A D R → List (ℕ × Event A D R)) := by
  intro b b' h
  have hlen : (dataEvents n b.addr b.awTime b.beats : List (ℕ × Event A D R)).length =
      (dataEvents n b'.addr b'.awTime b'.beats : List (ℕ × Event A D R)).length := by
    simp [dataEvents, b.length_eq, b'.length_eq]
  obtain ⟨hdata, hresp⟩ := List.append_inj h hlen
  obtain ⟨haw, hbeats⟩ := List.cons_eq_cons.mp hdata
  have hbeats' : b.beats = b'.beats := by
    refine List.ext_getElem (b.length_eq.trans b'.length_eq.symm) ?_
    intro k hk hk'
    have hget := congrArg (fun l => l[k]?) hbeats
    simp only [List.getElem?_mapIdx, List.getElem?_eq_getElem hk,
      List.getElem?_eq_getElem hk', Option.map_some, Option.some.injEq, Prod.mk.injEq,
      Event.w.injEq] at hget
    cases hb : b.beats[k]
    cases hb' : b'.beats[k]
    simp_all
  simp only [Prod.mk.injEq, Event.aw.injEq] at haw
  simp only [List.cons.injEq, Prod.mk.injEq, Event.b.injEq] at hresp
  exact Burst.ext haw.2 haw.1 hbeats' hresp.1.2 hresp.1.1

/-- The handshakes of complete bursts determine the bursts. -/
theorem traceEvents_injective {n : ℕ} {bs bs' : List (Burst n A D R)}
    (h : traceEvents bs none = traceEvents bs' none) : bs = bs' := by
  have h' : bs.flatMap Burst.events = bs'.flatMap Burst.events := by
    simpa [traceEvents] using h
  induction bs generalizing bs' with
  | nil =>
      cases bs' with
      | nil => rfl
      | cons b' bs' => simp [Burst.events, dataEvents] at h'
  | cons b bs ih =>
      cases bs' with
      | nil => simp [Burst.events, dataEvents] at h'
      | cons b' bs' =>
          rw [List.flatMap_cons, List.flatMap_cons] at h'
          obtain ⟨hhead, htail⟩ :=
            List.append_inj h' (b.length_events.trans b'.length_events.symm)
          have hrest := ih (by simpa [traceEvents] using htail) htail
          rw [Burst.events_injective hhead, hrest]

/-! ## Addresses of successive bursts -/

section Addresses

variable [DecidableEq R] {n : ℕ} (okay : R) (next : A → A)

/-- Where the master continues after a burst: further on after an OKAY
response, at the same address after an error. -/
def Burst.continuesAt (b : Burst n A D R) : A :=
  if b.resp = okay then next b.addr else b.addr

/-- The bursts start at {lit}`a`, each one starts where the one before it
continues, and the last one continues at {lit}`a'`. -/
def Follows (a : A) : List (Burst n A D R) → A → Prop
  | [], a' => a = a'
  | b :: bs, a' => b.addr = a ∧ Follows (b.continuesAt okay next) bs a'

/-- Addresses of the bursts that were answered OKAY. -/
def okayAddrs (bs : List (Burst n A D R)) : List A :=
  (bs.filter fun b => b.resp = okay).map Burst.addr

@[simp]
theorem okayAddrs_nil : okayAddrs okay ([] : List (Burst n A D R)) = [] :=
  rfl

theorem okayAddrs_append (bs bs' : List (Burst n A D R)) :
    okayAddrs okay (bs ++ bs') = okayAddrs okay bs ++ okayAddrs okay bs' := by
  simp [okayAddrs]

theorem Follows.append {a a' a'' : A} {bs bs' : List (Burst n A D R)}
    (h : Follows okay next a bs a') (h' : Follows okay next a' bs' a'') :
    Follows okay next a (bs ++ bs') a'' := by
  induction bs generalizing a with
  | nil =>
      cases h
      exact h'
  | cons b bs ih => exact ⟨h.1, ih h.2⟩

/-- One more burst, at the address where the earlier ones left off. -/
theorem Follows.concat {a a' : A} {bs : List (Burst n A D R)}
    (h : Follows okay next a bs a') (b : Burst n A D R) (hb : b.addr = a') :
    Follows okay next a (bs ++ [b]) (b.continuesAt okay next) :=
  h.append okay next ⟨hb, rfl⟩

/-- A burst answered with an error is followed by one at the same address. -/
theorem Follows.isChain_retry {a a' : A} {bs : List (Burst n A D R)}
    (h : Follows okay next a bs a') :
    bs.IsChain fun b b' => b.resp ≠ okay → b'.addr = b.addr := by
  induction bs generalizing a with
  | nil => exact .nil
  | cons b bs ih =>
      cases bs with
      | nil => exact .singleton b
      | cons b' bs =>
          refine .cons_cons ?_ (ih h.2)
          intro herr
          have hnext : b'.addr = b.continuesAt okay next := h.2.1
          rw [hnext, Burst.continuesAt, if_neg herr]

/-- After a final error the master stays at the address of the last burst. -/
theorem Follows.last_retry {a a' : A} {bs : List (Burst n A D R)} {b : Burst n A D R}
    (h : Follows okay next a bs a') (hlast : bs.getLast? = some b) (herr : b.resp ≠ okay) :
    a' = b.addr := by
  induction bs generalizing a with
  | nil => simp at hlast
  | cons c bs ih =>
      cases bs with
      | nil =>
          obtain rfl : c = b := by simpa using hlast
          have hnext : c.continuesAt okay next = a' := h.2
          rw [← hnext, Burst.continuesAt, if_neg herr]
      | cons c' bs => exact ih h.2 (by simpa using hlast)

/-- The OKAY addresses are the iterates of {lit}`next` from the first address,
each once and in order; the final address is the next iterate. -/
theorem Follows.okayAddrs {a a' : A} {bs : List (Burst n A D R)}
    (h : Follows okay next a bs a') :
    AxiWrite.okayAddrs okay bs =
        (List.range (AxiWrite.okayAddrs okay bs).length).map (fun k => next^[k] a) ∧
      a' = next^[(AxiWrite.okayAddrs okay bs).length] a := by
  induction bs generalizing a with
  | nil =>
      cases h
      simp
  | cons b bs ih =>
      obtain ⟨haddr, hrest⟩ := h
      obtain ⟨hmap, hlast⟩ := ih hrest
      by_cases hok : b.resp = okay
      · rw [Burst.continuesAt, if_pos hok, haddr] at hmap hlast
        have hcons : AxiWrite.okayAddrs okay (b :: bs) =
            a :: AxiWrite.okayAddrs okay bs := by
          simp [AxiWrite.okayAddrs, hok, haddr]
        refine ⟨?_, ?_⟩
        · rw [hcons, List.length_cons, List.range_succ_eq_map, List.map_cons, List.map_map]
          simpa [Function.comp_def] using hmap
        · rw [hcons, List.length_cons, Function.iterate_succ_apply]
          exact hlast
      · rw [Burst.continuesAt, if_neg hok, haddr] at hmap hlast
        have hskip : AxiWrite.okayAddrs okay (b :: bs) = AxiWrite.okayAddrs okay bs := by
          simp [AxiWrite.okayAddrs, hok]
        rw [hskip]
        exact ⟨hmap, hlast⟩

end Addresses

/-! ## The words a slave stores -/

section Transfer

variable {n : ℕ} (inc : A → A)

/-- Words stored by an incrementing slave, with their addresses.  The pointer
starts at {lit}`p`; an accepted address sets it and an accepted beat advances
it. -/
def transferred (p : A) : List (ℕ × Event A D R) → List (A × D)
  | [] => []
  | (_, .aw addr) :: evs => transferred addr evs
  | (_, .w data _) :: evs => (p, data) :: transferred (inc p) evs
  | (_, .b _) :: evs => transferred p evs

/-- The words of one burst, at consecutive addresses. -/
def Burst.words (b : Burst n A D R) : List (A × D) :=
  b.beats.mapIdx fun k beat => (inc^[k] b.addr, beat.data)

/-- Concatenations of pieces of equal lengths agree exactly when the pieces do. -/
theorem flatMap_eq_iff {α β : Type*} {f g : α → List β} {l : List α}
    (h : ∀ a ∈ l, (f a).length = (g a).length) :
    l.flatMap f = l.flatMap g ↔ ∀ a ∈ l, f a = g a := by
  induction l with
  | nil => simp
  | cons a l ih =>
      rw [List.forall_mem_cons] at h
      rw [List.flatMap_cons, List.flatMap_cons, List.forall_mem_cons, ← ih h.2]
      constructor
      · exact fun heq => List.append_inj heq h.1
      · rintro ⟨hhead, htail⟩
        rw [hhead, htail]

/-- The words of a stream of beats and whatever follows it. -/
theorem transferred_mapIdx (p : A) (beats : List (Beat D)) (last : ℕ → Bool)
    (evs : List (ℕ × Event A D R)) :
    transferred inc p
        ((beats.mapIdx fun k beat => (beat.time, Event.w beat.data (last k))) ++ evs) =
      (beats.mapIdx fun k beat => (inc^[k] p, beat.data)) ++
        transferred inc (inc^[beats.length] p) evs := by
  induction beats generalizing p last with
  | nil => rfl
  | cons beat beats ih =>
      rw [List.mapIdx_cons, List.mapIdx_cons, List.cons_append, transferred,
        ih (inc p) (fun k => last (k + 1))]
      simp [Function.iterate_succ_apply]

/-- The words stored over complete bursts are the beats of these bursts. -/
theorem transferred_traceEvents (p : A) (bs : List (Burst n A D R)) :
    transferred inc p (traceEvents bs none) = bs.flatMap (Burst.words inc) := by
  have key : ∀ p, transferred inc p (bs.flatMap Burst.events) =
      bs.flatMap (Burst.words inc) := by
    induction bs with
    | nil => intro p; rfl
    | cons b bs ih =>
        intro p
        rw [List.flatMap_cons, List.flatMap_cons, Burst.events, dataEvents,
          List.append_assoc, List.cons_append, transferred,
          transferred_mapIdx inc b.addr b.beats (fun k => k + 1 == n)]
        rw [List.singleton_append, transferred, ih, Burst.words]
  simpa [traceEvents] using key p

/-- A burst stores the words {lit}`w` exactly when its beats carry them. -/
theorem Burst.words_eq_iff (b : Burst n A D R) (w : ℕ → D) :
    b.words inc = (List.range n).map (fun k => (inc^[k] b.addr, w k)) ↔
      b.beats.map Beat.data = (List.range n).map w := by
  constructor
  · intro h
    have hsnd := congrArg (List.map Prod.snd) h
    rw [Burst.words, List.map_map] at hsnd
    refine Eq.trans ?_ hsnd
    refine List.ext_getElem (by simp) ?_
    intro k hk hk'
    simp
  · intro h
    refine List.ext_getElem (by simp [Burst.words, b.length_eq]) ?_
    intro k hk hk'
    have hget := congrArg (fun l => l[k]?) h
    have hlt : k < n := by simpa using hk'
    have hlt' : k < b.beats.length := by rwa [b.length_eq]
    simpa [Burst.words, hlt, hlt'] using hget

end Transfer

/-! ## Beats behind a two-register prefetch -/

section Prefetch

variable (w : ℕ → D) (first : D)

/-- Output of a registered read port in cycle {lit}`t`, when the beats accepted
so far are {lit}`l`, newest first.  The port still shows the previous word in
the cycle right after a beat. -/
def readPort (t : ℕ) : List (Beat D) → D
  | [] => w 0
  | b :: l => if t = b.time + 1 then w l.length else w (l.length + 1)

/-- Datum on offer behind a second register, which loads the read port with
every accepted beat and holds {lit}`first` before that. -/
def offered : List (Beat D) → D
  | [] => first
  | b :: l => readPort w b.time l

/-- Every beat carries the datum that was on offer. -/
def Prefetched : List (Beat D) → Prop
  | [] => True
  | b :: l => b.data = offered w first l ∧ Prefetched l

/-- Every beat carries the word of its own position. -/
def InOrder : List (Beat D) → Prop
  | [] => True
  | b :: l => b.data = w l.length ∧ InOrder l

/-- If the words so far are all equal, the read port shows that word too. -/
theorem readPort_eq_of_const {l : List (Beat D)} (t : ℕ)
    (h : ∀ k, k ≤ l.length → w k = w 0) : readPort w t l = w 0 := by
  cases l with
  | nil => rfl
  | cons b l =>
      rw [readPort]
      split_ifs
      · exact h l.length (Nat.le_succ _)
      · exact h (l.length + 1) (Nat.le_refl _)

/-- The two registers delay the words by one or two beats, so nothing but equal
words comes out in order. -/
theorem Prefetched.inOrder_iff {l : List (Beat D)} (h : Prefetched w first l) :
    InOrder w l ↔ (l ≠ [] → first = w 0) ∧ ∀ k < l.length, w k = w 0 := by
  induction l with
  | nil => simp [InOrder]
  | cons b l ih =>
      obtain ⟨hdata, hrest⟩ := h
      rw [InOrder, ih hrest, hdata]
      cases l with
      | nil =>
          constructor
          · rintro ⟨hfirst, -⟩
            refine ⟨fun _ => hfirst, ?_⟩
            intro k hk
            obtain rfl : k = 0 := by simpa using hk
            rfl
          · rintro ⟨hfirst, -⟩
            exact ⟨hfirst (List.cons_ne_nil _ _), by simp, by simp⟩
      | cons c l =>
          constructor
          · rintro ⟨hnew, hfirst, hold⟩
            refine ⟨fun _ => hfirst (List.cons_ne_nil _ _), ?_⟩
            intro k hk
            rcases Nat.lt_succ_iff_lt_or_eq.mp hk with hlt | heq
            · exact hold k hlt
            · rw [heq, ← hnew, offered]
              exact readPort_eq_of_const w c.time fun k hk =>
                hold k (Nat.lt_succ_of_le hk)
          · rintro ⟨hfirst, hall⟩
            have hold : ∀ k < (c :: l).length, w k = w 0 :=
              fun k hk => hall k (Nat.lt_succ_of_lt hk)
            refine ⟨?_, fun _ => hfirst (List.cons_ne_nil _ _), hold⟩
            rw [offered, hall (c :: l).length (Nat.lt_succ_self _)]
            exact readPort_eq_of_const w c.time fun k hk =>
                hold k (Nat.lt_succ_of_le hk)

/-- Reading the beats oldest first. -/
theorem inOrder_reverse_iff (l : List (Beat D)) :
    InOrder w l.reverse ↔ l.map Beat.data = (List.range l.length).map w := by
  induction l using List.reverseRecOn with
  | nil => simp [InOrder]
  | append_singleton l b ih =>
      rw [List.reverse_append, List.reverse_singleton, List.singleton_append, InOrder, ih,
        List.length_reverse, List.map_append, List.length_append, List.length_singleton,
        List.range_succ, List.map_append]
      constructor
      · rintro ⟨hdata, hrest⟩
        rw [hrest]
        simp [hdata]
      · intro h
        obtain ⟨hrest, hdata⟩ := List.append_inj h (by simp)
        exact ⟨by simpa using hdata, hrest⟩

end Prefetch

end AxiWrite
