import Dnser.Proof.CacheRefines
import Dnser.Proto.Message
import Dnser.Server.Config

/-!
# How long a response is kept, and how old it gets

An entry is an accepted response, kept for as many seconds as `insert` has worked out for it
(`Stamped`). Four promises about that number and about what a lookup makes of it do not hold
everywhere, and for each of them it is said exactly where.

A response that is served is not stale, unless it is an NXDOMAIN with answers: its lifetime comes
from the SOA record alone. A negative response is kept no longer than its SOA record allows, unless
there are answers, such as a chain of aliases that ends nowhere. A lookup ages TTLs and nothing
else, unless there is an OPT record, whose TTL field is not a TTL. And the cap on negative lifetimes
is the configured one, unless that does not fit 32 bits.
-/

namespace Dnser

open Utf8 (Str)

namespace Cache

/-! ## What is stored -/

/-- Every entry is an accepted response, with the lifetime it was accepted for. -/
def Stamped (c : Cache) : Prop :=
  ∀ k e, c.lookup k = some e → ∃ q ttl, admits c.maxNegativeTtl e.response = some (q, ttl) ∧
    k = CacheKey.fromQuestion q ∧ e = newEntry e.response e.insertedAt ttl

theorem stamped_new (hashing : Hashing) (capacity : UInt64) (cap : UInt32) :
    (new hashing capacity cap).Stamped := by
  intro k e he
  rw [lookup_new] at he
  cases he

theorem Stamped.step {c : Cache} (h : c.Stamped) (hplaced : c.Placed) (op : Nat × Op) :
    (c.step op).Stamped := by
  obtain ⟨now, op⟩ := op
  intro k e he
  rw [(sameConfig_step c (now, op)).2.1]
  cases op with
  | get q => exact h k e he
  | insert order response =>
      rcases lookup_insert_cases hplaced he with he | ⟨q, ttl, hadm, hk, rfl⟩
      · exact h k e he
      · exact ⟨q, ttl, hadm, hk, rfl⟩
  | evictExpired => exact h k e ((lookup_evictExpired_eq_some_iff hplaced now k e).mp he).1

theorem Placed.step {c : Cache} (h : c.Placed) (op : Nat × Op) : (c.step op).Placed := by
  obtain ⟨now, op⟩ := op
  cases op with
  | get q => exact h
  | insert order response => exact h.insert order response now
  | evictExpired => exact h.evictExpired now

theorem stamped_run {c : Cache} (hplaced : c.Placed) (h : c.Stamped) (ops : List (Nat × Op)) :
    (c.run ops).Placed ∧ (c.run ops).Stamped := by
  induction ops generalizing c with
  | nil => exact ⟨hplaced, h⟩
  | cons op ops ih => exact ih (hplaced.step op) (h.step hplaced op)

/-- What is accepted is stored. -/
theorem lookup_insert_self {c : Cache} (order : Fin numShards → ShardOrder) {response : Message}
    (now : Nat) {q : Question} {ttl : UInt32}
    (h : admits c.maxNegativeTtl response = some (q, ttl)) :
    (c.insert order response now).lookup (CacheKey.fromQuestion q) =
      some (newEntry response now ttl) := by
  rcases insert_cases c order response now with ⟨hnone, -⟩ | ⟨q', ttl', room, hadm, hrun, -⟩
  · rw [h] at hnone
    cases hnone
  · rw [h] at hadm
    cases hadm
    rw [hrun, lookup_store, if_pos rfl]

/-- A lookup that is answered, and the entry it is answered from. -/
structure Hit (c : Cache) (q : Question) (now : Nat) (e : CacheEntry) (r : Message) : Prop where
  entry : c.probe (Lookup.fromQuestion q) = some e
  get : c.get q now = some r

theorem Hit.aged {c : Cache} {q : Question} {now : Nat} {e : CacheEntry} {r : Message}
    (h : Hit c q now e r) : now < e.expiresAt ∧
      r = { e.response with
        answers := rewriteTtls e.response.answers (elapsedSecs e now)
        authority := rewriteTtls e.response.authority (elapsedSecs e now)
        additional := rewriteTtls e.response.additional (elapsedSecs e now) } := by
  obtain ⟨e', hprobe, hexp, hr⟩ := get_eq_some_iff.mp h.get
  rw [h.entry] at hprobe
  cases hprobe
  exact ⟨hexp, hr⟩

/-- What was stored is found as long as it has not expired, by a lookup that is led there. -/
theorem hit_insert {c : Cache} (hplaced : c.Placed) (order : Fin numShards → ShardOrder)
    {response : Message} (since now : Nat) {q : Question} {ttl : UInt32}
    (hadm : admits c.maxNegativeTtl response = some (q, ttl)) (hleads : c.Leads q)
    (hlive : now < since + ttl.toNat * nanosPerSec) :
    ∃ r, Hit (c.insert order response since) q now (newEntry response since ttl) r := by
  have hleads' := (leads_congr (sameConfig_insert c order response since).2.2 q).mpr hleads
  have hprobe := (probe_eq_some_iff (hplaced.insert order response since)).mpr
    ⟨hleads', lookup_insert_self order since hadm⟩
  exact ⟨_, hprobe, get_eq_some_iff.mpr ⟨_, hprobe, hlive, rfl⟩⟩

/-! ## What a lookup changes -/

/-- The same record but for its TTL, and for that as well if it is an OPT record. -/
def SameButTtl (rr rr' : ResourceRecord) : Prop :=
  rr' = { rr with ttl := rr'.ttl } ∧ (rr.isOpt = true → rr'.ttl = rr.ttl)

/-- The same message but for the TTLs of its records. -/
structure AgesOnlyTtls (m m' : Message) : Prop where
  header : m'.header = m.header
  questions : m'.questions = m.questions
  answers : List.Forall₂ SameButTtl m.answers m'.answers
  authority : List.Forall₂ SameButTtl m.authority m'.authority
  additional : List.Forall₂ SameButTtl m.additional m'.additional

/-- A TTL survives the subtraction if it is zero or nothing is subtracted. -/
theorem saturating_sub_eq_self_iff (ttl elapsed : UInt32) :
    (if ttl ≤ elapsed then 0 else ttl - elapsed) = ttl ↔ elapsed = 0 ∨ ttl = 0 := by
  simp only [← UInt32.toNat_inj, UInt32.toNat_zero]
  split
  · rename_i hle
    have hle' := UInt32.le_iff_toNat_le.mp hle
    rw [UInt32.toNat_zero]
    omega
  · rename_i hle
    have hlt : elapsed.toNat < ttl.toNat := UInt32.lt_iff_toNat_lt.mp (UInt32.not_le.mp hle)
    rw [UInt32.toNat_sub_of_le _ _ (UInt32.le_iff_toNat_le.mpr (Nat.le_of_lt hlt))]
    omega

theorem sameButTtl_rewriteTtls_iff (records : List ResourceRecord) (elapsed : UInt32) :
    List.Forall₂ SameButTtl records (rewriteTtls records elapsed) ↔
      ∀ rr ∈ records, rr.isOpt = true → elapsed = 0 ∨ rr.ttl = 0 := by
  unfold rewriteTtls
  rw [List.forall₂_map_right_iff, List.forall₂_same]
  refine forall₂_congr fun rr _ => ?_
  simp only [SameButTtl, true_and, saturating_sub_eq_self_iff]

theorem elapsedSecs_eq_zero_iff (e : CacheEntry) (now : Nat) :
    elapsedSecs e now = 0 ↔ now < e.insertedAt + nanosPerSec := by
  have hpos : 0 < nanosPerSec := by decide
  rw [elapsedSecs, ← UInt32.toNat_inj, UInt32.toNat_ofNat', UInt32.toNat_zero,
    Nat.mod_eq_of_lt (by omega)]
  have hdiv : (now - e.insertedAt) / nanosPerSec = 0 ↔ now - e.insertedAt < nanosPerSec := by
    rw [Nat.div_eq_zero_iff]
    omega
  omega

/--
**A lookup ages TTLs and nothing else exactly if no OPT record has anything in its TTL field.** A
message that comes from the cache is the stored one in all its fields but the TTLs of records other
than OPT records if and only if it was stored less than a second ago or the TTL field of every OPT
record in it is zero.
-/
theorem hit_ages_only_ttls_iff (c : Cache) (q : Question) (now : Nat) (e : CacheEntry) (r : Message)
    (h : Hit c q now e r) :
    AgesOnlyTtls e.response r ↔ now < e.insertedAt + nanosPerSec ∨
      ∀ rr ∈ e.response.answers ++ e.response.authority ++ e.response.additional,
        rr.isOpt = true → rr.ttl = 0 := by
  obtain ⟨-, rfl⟩ := h.aged
  rw [← elapsedSecs_eq_zero_iff]
  have hsections := fun records => sameButTtl_rewriteTtls_iff records (elapsedSecs e now)
  constructor
  · intro hages
    by_cases hzero : elapsedSecs e now = 0
    · exact .inl hzero
    · refine .inr fun rr hrr hopt => ?_
      rcases List.mem_append.mp hrr with hrr | hrr
      · rcases List.mem_append.mp hrr with hrr | hrr
        · exact ((hsections _).mp hages.answers rr hrr hopt).resolve_left hzero
        · exact ((hsections _).mp hages.authority rr hrr hopt).resolve_left hzero
      · exact ((hsections _).mp hages.additional rr hrr hopt).resolve_left hzero
  · intro hcond
    have hall : ∀ rr ∈ e.response.answers ++ e.response.authority ++ e.response.additional,
        rr.isOpt = true → elapsedSecs e now = 0 ∨ rr.ttl = 0 := by
      intro rr hrr hopt
      exact hcond.imp_right fun hzero => hzero rr hrr hopt
    refine ⟨rfl, rfl, (hsections _).mpr ?_, (hsections _).mpr ?_, (hsections _).mpr ?_⟩
    · intro rr hrr
      exact hall rr (List.mem_append_left _ (List.mem_append_left _ hrr))
    · intro rr hrr
      exact hall rr (List.mem_append_left _ (List.mem_append_right _ hrr))
    · intro rr hrr
      exact hall rr (List.mem_append_right _ hrr)

/-- The question for the addresses of the root. -/
def rootQuestion : Question := { name := Str.empty, qtype := .a, qclass := Class.IN }

/-- An address with an OPT record beside it that has the DO bit set. -/
def ednsAnswer : Message :=
  { answerFor Str.empty 60 with
    header := { id := 7, flags := Header.QR, qdCount := 1, anCount := 1, arCount := 1 }
    additional := [{ ResourceRecord.ednsOpt 4096 with ttl := 0x8000 }] }

/-- The cache it is stored in. -/
def ednsStored : Cache := (new plainHashing 10 300).insert (fun _ => .asStored) ednsAnswer 0

theorem ednsStored_hit {now : Nat} (h : now < 60000000000) :
    ∃ r, Hit ednsStored rootQuestion now (newEntry ednsAnswer 0 60) r :=
  hit_insert (placed_new _ _ _) _ 0 now rfl (leads_of_len_le _ (by decide)) h

/-- Within the first second it comes back as it was. -/
theorem ednsStored_unchanged : ∃ r, Hit ednsStored rootQuestion 500000000 (newEntry ednsAnswer 0 60) r ∧
    AgesOnlyTtls ednsAnswer r := by
  obtain ⟨r, h⟩ := ednsStored_hit (show 500000000 < 60000000000 by decide)
  exact ⟨r, h, (hit_ages_only_ttls_iff _ _ _ _ _ h).mpr (.inl (by decide))⟩

/-- After five seconds its DO bit is gone. -/
theorem ednsStored_changed : ∃ r, Hit ednsStored rootQuestion 5000000000 (newEntry ednsAnswer 0 60) r ∧
    ¬ AgesOnlyTtls ednsAnswer r := by
  obtain ⟨r, h⟩ := ednsStored_hit (show 5000000000 < 60000000000 by decide)
  refine ⟨r, h, fun hages => ?_⟩
  obtain ⟨-, rfl⟩ := h.aged
  have hopt := (sameButTtl_rewriteTtls_iff _ _).mp hages.additional _ List.mem_cons_self rfl
  rcases hopt with hzero | hzero
  · exact absurd hzero (by decide +kernel)
  · exact absurd hzero (by decide)

/-! ## Stale answers -/

/-- The lifetime of an accepted response, in its two cases. -/
theorem ttl_of_admits {cap : UInt32} {response : Message} {q : Question} {ttl : UInt32}
    (h : admits cap response = some (q, ttl)) :
    ttl ≠ 0 ∧ ((response.header.rcode = .ok .noError ∧ response.answers ≠ [] ∧
        (response.answers.map ResourceRecord.ttl).min? = some ttl) ∨
      ((response.header.rcode = .ok .noError ∧ response.answers = [] ∨
          response.header.rcode = .ok .nxDomain) ∧
        ∃ m, soaNegativeTtl response.authority = some m ∧ ttl = min m cap)) := by
  unfold admits at h
  split at h
  · split at h
    · cases h
    · split at h
      · cases h
      · rename_i t ht
        split at h
        · cases h
        · rename_i hne
          cases h
          refine ⟨hne, ?_⟩
          unfold effectiveTtl at ht
          split at ht
          · rename_i hrcode
            split at ht
            · rename_i hempty
              obtain ⟨m, hm, hmin⟩ := Option.map_eq_some_iff.mp ht
              exact .inr ⟨.inl ⟨hrcode, List.isEmpty_iff.mp hempty⟩, m, hm, hmin.symm⟩
            · rename_i hempty
              exact .inl ⟨hrcode, fun hnil => hempty (List.isEmpty_iff.mpr hnil), ht⟩
          · rename_i hrcode
            obtain ⟨m, hm, hmin⟩ := Option.map_eq_some_iff.mp ht
            exact .inr ⟨.inr hrcode, m, hm, hmin.symm⟩
          · cases ht
  · cases h

/-- Every answer had time to live left when it was served, and has some left in the reply. -/
def ServedFresh (e : CacheEntry) (now : Nat) (r : Message) : Prop :=
  (∀ rr ∈ e.response.answers, (now - e.insertedAt) / nanosPerSec < rr.ttl.toNat) ∧
    ∀ rr ∈ r.answers, 1 ≤ rr.ttl

/-- What is served has not been there for as many seconds as it was accepted for. -/
theorem elapsed_lt_of_hit {c : Cache} (hplaced : c.Placed) (hstamped : c.Stamped) {q q' : Question}
    {now : Nat} {e : CacheEntry} {r : Message} {ttl : UInt32} (h : Hit c q' now e r)
    (hadm : admits c.maxNegativeTtl e.response = some (q, ttl)) :
    (now - e.insertedAt) / nanosPerSec < ttl.toNat := by
  obtain ⟨q₀, ttl₀, hadm₀, -, he⟩ := hstamped _ _ (lookup_of_probe hplaced h.entry)
  rw [hadm] at hadm₀
  cases hadm₀
  have hexp := h.aged.1
  rw [he] at hexp
  have hne : ttl.toNat ≠ 0 := fun h0 => (ttl_of_admits hadm).1 (UInt32.toNat_inj.mp h0)
  rw [Nat.div_lt_iff_lt_mul (by decide)]
  have hlt : now < e.insertedAt + ttl.toNat * nanosPerSec := hexp
  have hpos : 0 < ttl.toNat * nanosPerSec := Nat.mul_pos (by omega) (by decide)
  omega

/-- Answers that outlive their entry are served with some time to live. -/
theorem servedFresh_of_le {c : Cache} {q : Question} {now : Nat} {e : CacheEntry} {r : Message}
    (h : Hit c q now e r) {ttl : UInt32} (hlt : (now - e.insertedAt) / nanosPerSec < ttl.toNat)
    (hle : ∀ rr ∈ e.response.answers, ttl ≤ rr.ttl) : ServedFresh e now r := by
  have hall : ∀ rr ∈ e.response.answers, (now - e.insertedAt) / nanosPerSec < rr.ttl.toNat := by
    intro rr hrr
    exact Nat.lt_of_lt_of_le hlt (UInt32.le_iff_toNat_le.mp (hle rr hrr))
  refine ⟨hall, ?_⟩
  obtain ⟨-, rfl⟩ := h.aged
  intro rr' hrr'
  obtain ⟨rr, hrr, rfl⟩ := List.mem_map.mp hrr'
  have hsecs : (elapsedSecs e now).toNat = (now - e.insertedAt) / nanosPerSec :=
    toNat_elapsedSecs (Nat.lt_trans (hall rr hrr) rr.ttl.toNat_lt)
  have hrest := hall rr hrr
  rw [← hsecs] at hrest
  have hnot : ¬ rr.ttl ≤ elapsedSecs e now :=
    fun hge => Nat.not_lt.mpr (UInt32.le_iff_toNat_le.mp hge) hrest
  dsimp only
  rw [if_neg hnot, UInt32.le_iff_toNat_le,
    UInt32.toNat_sub_of_le _ _ (UInt32.le_iff_toNat_le.mpr (Nat.le_of_lt hrest))]
  show 1 ≤ _
  omega

/-- The answers of an accepted response outlive its entry, unless it is an NXDOMAIN: then the
lifetime comes from elsewhere. -/
theorem ttl_le_answers_iff {cap : UInt32} {response : Message} {q : Question} {ttl : UInt32}
    (hadm : admits cap response = some (q, ttl)) :
    (∀ rr ∈ response.answers, ttl ≤ rr.ttl) ↔
      (response.header.rcode ≠ .ok .nxDomain ∨ ∀ rr ∈ response.answers, ∀ m,
        soaNegativeTtl response.authority = some m → min m cap ≤ rr.ttl) := by
  rcases (ttl_of_admits hadm).2 with ⟨hno, -, hmin⟩ | ⟨⟨hno, hnil⟩ | hnx, m, hm, hmin⟩
  · refine iff_of_true (fun rr hrr => ?_) (.inl (by rw [hno]; simp))
    exact (List.min?_eq_some_iff.mp hmin).2 _ (List.mem_map_of_mem hrr)
  · refine iff_of_true (fun rr hrr => ?_) (.inl (by rw [hno]; simp))
    rw [hnil] at hrr
    cases hrr
  · constructor
    · intro hle
      refine .inr fun rr hrr m' hm' => ?_
      rw [hm] at hm'
      cases hm'
      exact hmin ▸ hle rr hrr
    · intro hcond rr hrr
      rw [hmin]
      exact (hcond.resolve_left fun hnot => hnot hnx) rr hrr m hm

/-- Hashers that tell nothing apart, so that every lookup is led to its key. -/
def blindHashing : Hashing :=
  { shard := fun _ => 0
    finds := fun _ _ _ => true
    finds_self := fun _ _ => rfl }

theorem leads_blindHashing (capacity : UInt64) (cap : UInt32) (q : Question) :
    (new blindHashing capacity cap).Leads q :=
  ⟨rfl, rfl⟩

/-- What is served fresh in the last second of its entry outlives it. -/
theorem ttl_le_of_fresh {cap : UInt32} {response : Message} {q : Question} {ttl : UInt32}
    (hadm : admits cap response = some (q, ttl))
    (hfresh : ∀ hashing capacity ops q' now e r, Hit ((new hashing capacity cap).run ops) q' now e r →
      e.response = response → ServedFresh e now r) :
    ∀ rr ∈ response.answers, ttl ≤ rr.ttl := by
  intro rr hrr
  have hpos : 0 < ttl.toNat :=
    Nat.pos_of_ne_zero fun h0 => (ttl_of_admits hadm).1 (UInt32.toNat_inj.mp h0)
  have hlive : (ttl.toNat - 1) * nanosPerSec < 0 + ttl.toNat * nanosPerSec := by
    rw [Nat.zero_add]
    exact Nat.mul_lt_mul_of_pos_right (by omega) (by decide)
  obtain ⟨r, hit⟩ := hit_insert (placed_new blindHashing 10 cap) (fun _ => .asStored) 0
    ((ttl.toNat - 1) * nanosPerSec) hadm (leads_blindHashing 10 cap q) hlive
  have hlt := (hfresh blindHashing 10 [(0, .insert (fun _ => .asStored) response)] q _ _ r hit
    rfl).1 rr hrr
  have hsecs : ((ttl.toNat - 1) * nanosPerSec - (newEntry response 0 ttl).insertedAt) /
      nanosPerSec = ttl.toNat - 1 := by
    rw [show (newEntry response 0 ttl).insertedAt = 0 from rfl, Nat.sub_zero,
      Nat.mul_div_cancel _ (by decide)]
  rw [hsecs] at hlt
  rw [UInt32.le_iff_toNat_le]
  omega

/--
**Answers are served fresh exactly if they outlive a negative lifetime.** Every lookup that ever
hits an accepted response returns answers whose TTL was greater than the seconds that have passed,
if and only if the response is not an NXDOMAIN or none of its answers has a smaller TTL than what
the SOA record and the cap make the lifetime of the entry.
-/
theorem answers_fresh_iff (cap : UInt32) (response : Message) (q : Question) (ttl : UInt32)
    (hadm : admits cap response = some (q, ttl)) :
    (∀ hashing capacity ops q' now e r, Hit ((new hashing capacity cap).run ops) q' now e r →
        e.response = response → ServedFresh e now r) ↔
      (response.header.rcode ≠ .ok .nxDomain ∨ ∀ rr ∈ response.answers, ∀ m,
        soaNegativeTtl response.authority = some m → min m cap ≤ rr.ttl) := by
  rw [← ttl_le_answers_iff hadm]
  refine ⟨ttl_le_of_fresh hadm, ?_⟩
  intro hle hashing capacity ops q' now e r hit hresp
  obtain ⟨hplaced, hstamped⟩ := stamped_run (placed_new hashing capacity cap)
    (stamped_new hashing capacity cap) ops
  have hcap : ((new hashing capacity cap).run ops).maxNegativeTtl = cap := (sameConfig_run _ ops).2.1
  have hadm' : admits ((new hashing capacity cap).run ops).maxNegativeTtl e.response =
      some (q, ttl) := by
    rw [hcap, hresp]
    exact hadm
  refine servedFresh_of_le hit (elapsed_lt_of_hit hplaced hstamped hit hadm') ?_
  rw [hresp]
  exact hle

/-- The question for the addresses of `a`. -/
def letterQuestion : Question := { name := Str.a, qtype := .a, qclass := Class.IN }

/-- A negative answer with an alias in it. The alias is good for `ttl` seconds and what the SOA
record says is good for a minute. -/
def aliasNxdomain (ttl : UInt32) : Message :=
  { header := { id := 7, flags := Header.QR ||| 3, qdCount := 1, anCount := 1, nsCount := 1 }
    questions := [letterQuestion]
    answers := [{ name := Str.a, cls := Class.IN, ttl, rdata := .cname Str.empty }]
    authority := [{ name := Str.empty, cls := Class.IN, ttl := 60,
                    rdata := .soa Str.empty Str.empty 1 60 60 60 60 }] }

theorem aliasNxdomain_hit {ttl : UInt32}
    (h : admits 300 (aliasNxdomain ttl) = some (letterQuestion, 60)) :
    ∃ r, Hit ((new plainHashing 10 300).insert (fun _ => .asStored) (aliasNxdomain ttl) 0)
      letterQuestion 10000000000 (newEntry (aliasNxdomain ttl) 0 60) r :=
  hit_insert (placed_new _ _ _) _ 0 10000000000 h (leads_of_len_le _ (by decide)) (by decide)

/-- An alias that is good for five minutes is served fresh. -/
theorem aliasNxdomain_fresh : ∃ r,
    Hit ((new plainHashing 10 300).insert (fun _ => .asStored) (aliasNxdomain 300) 0)
      letterQuestion 10000000000 (newEntry (aliasNxdomain 300) 0 60) r ∧
    ServedFresh (newEntry (aliasNxdomain 300) 0 60) 10000000000 r := by
  obtain ⟨r, hit⟩ := aliasNxdomain_hit (show admits 300 (aliasNxdomain 300) = _ from rfl)
  refine ⟨r, hit, (answers_fresh_iff 300 (aliasNxdomain 300) letterQuestion 60 rfl).mpr
    (.inr fun rr hrr m hm => ?_) plainHashing 10 [(0, .insert (fun _ => .asStored) (aliasNxdomain 300))]
    letterQuestion 10000000000 _ r hit rfl⟩
  cases hm
  rw [List.mem_singleton.mp hrr]
  decide

/-- One that is good for five seconds is still served after ten. -/
theorem aliasNxdomain_stale : ∃ r,
    Hit ((new plainHashing 10 300).insert (fun _ => .asStored) (aliasNxdomain 5) 0)
      letterQuestion 10000000000 (newEntry (aliasNxdomain 5) 0 60) r ∧
    ¬ ServedFresh (newEntry (aliasNxdomain 5) 0 60) 10000000000 r := by
  obtain ⟨r, hit⟩ := aliasNxdomain_hit (show admits 300 (aliasNxdomain 5) = _ from rfl)
  refine ⟨r, hit, fun hfresh => ?_⟩
  have hlt := hfresh.1 _ List.mem_cons_self
  exact absurd hlt (by decide)

/-! ## Negative answers -/

/-- A response that says that there is nothing of the kind that is asked for. -/
def Negative (q : Question) (response : Message) : Prop :=
  response.header.rcode = .ok .nxDomain ∨
    (response.header.rcode = .ok .noError ∧ q.qtype ∉ [.cname, .any, .axfr, .ixfr] ∧
      ∀ rr ∈ response.answers, rr.typeNumber ≠ q.qtype.toU16)

/-- An accepted response is stored with a lifetime that its first SOA record allows if and only if it
is an NXDOMAIN, or has no answers, or has an SOA record and an answer that does not live longer than
the first of them and the cap allow. -/
theorem soa_bounds_lifetime_iff (c : Cache) (order : Fin numShards → ShardOrder) (response : Message)
    (now : Nat) (q : Question) (ttl : UInt32)
    (hadm : admits c.maxNegativeTtl response = some (q, ttl)) :
    (∃ e, (c.insert order response now).lookup (CacheKey.fromQuestion q) = some e ∧
        ∃ soa, AbstractCache.firstSoa response.authority = some soa ∧
          e.expiresAt ≤ e.insertedAt +
            (min (min soa.1 soa.2) c.maxNegativeTtl).toNat * nanosPerSec) ↔
      (response.header.rcode = .ok .nxDomain ∨ response.answers = [] ∨
        ∃ soa, AbstractCache.firstSoa response.authority = some soa ∧
          ∃ a ∈ response.answers, a.ttl ≤ min (min soa.1 soa.2) c.maxNegativeTtl) := by
  have hstored := lookup_insert_self order now hadm
  have hlife : ∀ m : UInt32, (newEntry response now ttl).expiresAt ≤
      (newEntry response now ttl).insertedAt + (min m c.maxNegativeTtl).toNat * nanosPerSec ↔
        ttl ≤ min m c.maxNegativeTtl := by
    intro m
    show now + ttl.toNat * nanosPerSec ≤ now + _ ↔ _
    rw [Nat.add_le_add_iff_left, Nat.mul_le_mul_right_iff (by decide), UInt32.le_iff_toNat_le]
  rcases (ttl_of_admits hadm).2 with ⟨hno, hne, hmin⟩ | ⟨hshape, m, hm, hmin⟩
  · obtain ⟨hmem, hleast⟩ := List.min?_eq_some_iff.mp hmin
    constructor
    · intro hbound
      obtain ⟨e, he, soa, hsoa, hle⟩ := hbound
      rw [hstored] at he
      cases he
      -- the answer that gave the entry its lifetime
      obtain ⟨a, ha, hattl⟩ := List.mem_map.mp hmem
      exact .inr (.inr ⟨soa, hsoa, a, ha, hattl ▸ (hlife _).mp hle⟩)
    · intro hcond
      rcases hcond with hnx | hnil | ⟨soa, hsoa, a, ha, hle⟩
      · rw [hno] at hnx
        cases hnx
      · exact absurd hnil hne
      · have httl : ttl ≤ a.ttl := hleast _ (List.mem_map_of_mem ha)
        exact ⟨_, hstored, soa, hsoa, (hlife _).mpr (UInt32.le_trans httl hle)⟩
  · -- the lifetime comes from the first SOA record, and is what that allows
    rw [soaNegativeTtl_eq] at hm
    obtain ⟨soa, hsoa, rfl⟩ := Option.map_eq_some_iff.mp hm
    have hbound := (hlife (min soa.1 soa.2)).mpr (hmin ▸ UInt32.le_refl _)
    refine iff_of_true ⟨_, hstored, soa, hsoa, hbound⟩ ?_
    rcases hshape with ⟨-, hnil⟩ | hnx
    · exact .inr (.inl hnil)
    · exact .inl hnx

/--
**Negative answers are kept no longer than allowed, unless there are answers that live longer.** An
accepted response that is negative for its question is stored with a lifetime that its first SOA
record allows, if and only if it is an NXDOMAIN, or has no answers, or has an SOA record and an
answer that does not live longer than the first of them and the cap allow.
-/
theorem negative_lifetime_iff (c : Cache) (order : Fin numShards → ShardOrder) (response : Message)
    (now : Nat) (q : Question) (ttl : UInt32)
    (hadm : admits c.maxNegativeTtl response = some (q, ttl)) :
    (Negative q response →
      ∃ e, (c.insert order response now).lookup (CacheKey.fromQuestion q) = some e ∧
        ∃ soa, AbstractCache.firstSoa response.authority = some soa ∧
          e.expiresAt ≤ e.insertedAt +
            (min (min soa.1 soa.2) c.maxNegativeTtl).toNat * nanosPerSec) ↔
      (Negative q response →
        response.header.rcode = .ok .nxDomain ∨ response.answers = [] ∨
          ∃ soa, AbstractCache.firstSoa response.authority = some soa ∧
            ∃ a ∈ response.answers, a.ttl ≤ min (min soa.1 soa.2) c.maxNegativeTtl) :=
  imp_congr_right fun _ => soa_bounds_lifetime_iff c order response now q ttl hadm

/-- A chain of aliases for `a` that ends without an address. -/
def aliasNodata : Message :=
  { header := { id := 7, flags := Header.QR, qdCount := 1, anCount := 1 }
    questions := [letterQuestion]
    answers := [{ name := Str.a, cls := Class.IN, ttl := 3600, rdata := .cname Str.empty }] }

theorem aliasNodata_negative : Negative letterQuestion aliasNodata := by
  refine .inr ⟨rfl, by decide, fun rr hrr => ?_⟩
  rw [List.mem_singleton.mp hrr]
  decide

/-- An NXDOMAIN is stored for as long as its SOA record allows. -/
theorem aliasNxdomain_bounded : ∃ e,
    ((new plainHashing 10 300).insert (fun _ => .asStored) (aliasNxdomain 300) 0).lookup
      (CacheKey.fromQuestion letterQuestion) = some e ∧
    ∃ soa, AbstractCache.firstSoa (aliasNxdomain 300).authority = some soa ∧
      e.expiresAt ≤ e.insertedAt + (min (min soa.1 soa.2) 300).toNat * nanosPerSec :=
  (negative_lifetime_iff (new plainHashing 10 300) (fun _ => .asStored) (aliasNxdomain 300) 0
    letterQuestion 60 rfl).mpr (fun _ => .inl rfl) (.inl rfl)

/-- The chain of aliases is stored for an hour, with no SOA record at all. -/
theorem aliasNodata_unbounded : Negative letterQuestion aliasNodata ∧
    (((new plainHashing 10 300).insert (fun _ => .asStored) aliasNodata 0).lookup
      (CacheKey.fromQuestion letterQuestion) = some (newEntry aliasNodata 0 3600)) ∧
    AbstractCache.firstSoa aliasNodata.authority = none :=
  ⟨aliasNodata_negative, lookup_insert_self _ 0 rfl, rfl⟩

/-! ## The configured cap -/

/-- A negative response for `q` of a shape that can be cached, whose first SOA record lets it live
for `m` seconds. -/
structure NegativeShape (q : Question) (m : UInt32) (response : Message) : Prop where
  question : response.questions = [q]
  whole : response.header.isTruncated = false
  negative : response.header.rcode = .ok .nxDomain ∨
    (response.header.rcode = .ok .noError ∧ response.answers = [])
  soa : ∃ ttl minimum, AbstractCache.firstSoa response.authority = some (ttl, minimum) ∧
    min ttl minimum = m
  pos : 0 < m.toNat

/-- The response is there, with a lifetime of exactly `secs` seconds. -/
def StoredFor (c : Cache) (q : Question) (response : Message) (now secs : Nat) : Prop :=
  ∃ e, c.lookup (CacheKey.fromQuestion q) = some e ∧ e.response = response ∧ e.insertedAt = now ∧
    e.expiresAt = now + secs * nanosPerSec

/-- What becomes of a negative response depends on the cap only. -/
theorem NegativeShape.admits_eq {q : Question} {m : UInt32} {response : Message}
    (h : NegativeShape q m response) (cap : UInt32) :
    admits cap response = if min m cap = 0 then none else some (q, min m cap) := by
  obtain ⟨ttl, minimum, hsoa, hm⟩ := h.soa
  have hneg : soaNegativeTtl response.authority = some m := by
    rw [soaNegativeTtl_eq, hsoa, Option.map_some, hm]
  have httl : effectiveTtl cap response = some (min m cap) := by
    unfold effectiveTtl
    rcases h.negative with hnx | ⟨hno, hnil⟩
    · simp only [hnx, hneg, Option.map_some]
    · simp only [hno, hnil, List.isEmpty_nil, if_true, hneg, Option.map_some]
  unfold admits
  simp only [h.question, h.whole, httl, Bool.false_eq_true, if_false]

theorem toNat_min (a b : UInt32) : (min a b).toNat = min a.toNat b.toNat := by
  show (if a ≤ b then a else b).toNat = _
  by_cases hab : a ≤ b
  · have hle := UInt32.le_iff_toNat_le.mp hab
    rw [if_pos hab]
    omega
  · have hlt := UInt32.lt_iff_toNat_lt.mp (UInt32.not_le.mp hab)
    rw [if_neg hab]
    omega

/--
**The cap that is enforced is the configured one exactly if it fits.** With a configuration that is
accepted, whatever calls were made before: a negative response of a shape that can be cached is
stored for what its SOA record says or the configured cap, whichever is less, if and only if the
cap fits 32 bits or what is left of it there is no less than what the SOA record says.
-/
theorem configured_cap_iff (config : Config) (hvalid : config.validate = .ok ())
    (hashing : Hashing) (ops : List (Nat × Op)) (order : Fin numShards → ShardOrder)
    (response : Message) (now : Nat) (q : Question) (m : UInt32) (h : NegativeShape q m response) :
    StoredFor (((start config hashing).2.run ops).insert order response now) q response now
        (min m.toNat config.cache.maxNegativeTtlSecs.toNat) ↔
      (config.cache.maxNegativeTtlSecs.toNat < 2 ^ 32 ∨
        m.toNat ≤ config.cache.maxNegativeTtlSecs.toNat % 2 ^ 32) := by
  have hnonzero : config.cache.maxNegativeTtlSecs.toNat ≠ 0 := fun h0 =>
    nonzero_of_validate hvalid .zeroMaxNegativeTtl (UInt64.toNat_inj.mp h0)
  have hpos := h.pos
  have hlt := m.toNat_lt
  -- the cap after the cast
  have hcap : ((start config hashing).2.run ops).maxNegativeTtl =
      config.cache.maxNegativeTtlSecs.toUInt32 := (sameConfig_run _ ops).2.1
  have hcast : (min m config.cache.maxNegativeTtlSecs.toUInt32).toNat =
      min m.toNat (config.cache.maxNegativeTtlSecs.toNat % 2 ^ 32) := by
    rw [toNat_min, UInt64.toNat_toUInt32]
  have hadm := h.admits_eq ((start config hashing).2.run ops).maxNegativeTtl
  rw [hcap] at hadm
  by_cases hzero : min m config.cache.maxNegativeTtlSecs.toUInt32 = 0
  · -- what is left of the cap is nothing, and no negative response is accepted at all
    rw [if_pos hzero] at hadm
    rw [hzero, UInt32.toNat_zero] at hcast
    refine iff_of_false ?_ (by omega)
    intro hstored
    obtain ⟨e, he, hresp, -⟩ := hstored
    obtain ⟨hplaced, hstamped⟩ := stamped_run (placed_new hashing config.cache.maxEntries _)
      (stamped_new hashing config.cache.maxEntries config.cache.maxNegativeTtlSecs.toUInt32) ops
    have hsame := sameConfig_insert ((start config hashing).2.run ops) order response now
    obtain ⟨q', ttl, hadm', -⟩ :=
      hstamped.step hplaced (now, .insert order response) (CacheKey.fromQuestion q) e he
    have hnone : admits config.cache.maxNegativeTtlSecs.toUInt32 response = some (q', ttl) := by
      rw [← hresp, ← hcap, ← hsame.2.1]
      exact hadm'
    rw [hadm] at hnone
    cases hnone
  · rw [if_neg hzero] at hadm
    have hself := lookup_insert_self (c := (start config hashing).2.run ops) order now
      (by rw [hcap]; exact hadm)
    constructor
    · intro hstored
      obtain ⟨e, he, -, -, hexp⟩ := hstored
      rw [hself] at he
      cases he
      have hexp : now + (min m config.cache.maxNegativeTtlSecs.toUInt32).toNat * nanosPerSec = _ := hexp
      have hsecs := Nat.eq_of_mul_eq_mul_right (by decide) (Nat.add_left_cancel hexp)
      omega
    · intro hcond
      refine ⟨_, hself, rfl, rfl, ?_⟩
      show now + (min m config.cache.maxNegativeTtlSecs.toUInt32).toNat * nanosPerSec = _
      rw [hcast]
      congr 2
      omega

/-- A negative answer for `a` that is good for a minute. -/
theorem aliasNxdomain_shape : NegativeShape letterQuestion 60 (aliasNxdomain 300) :=
  ⟨rfl, rfl, .inl rfl, ⟨60, 60, rfl, rfl⟩, by decide⟩

/-- A configuration with a cap of `secs` on negative lifetimes. -/
def cappedConfig (secs : UInt64) : Config := { cache := { maxNegativeTtlSecs := secs } }

/-- With the default cap of an hour it is stored for its minute. -/
theorem cappedConfig_enforced :
    StoredFor ((start (cappedConfig 3600) plainHashing).2.insert (fun _ => .asStored)
      (aliasNxdomain 300) 0) letterQuestion (aliasNxdomain 300) 0 60 :=
  (configured_cap_iff (cappedConfig 3600) (by decide) plainHashing [] (fun _ => .asStored)
    (aliasNxdomain 300) 0 letterQuestion 60 aliasNxdomain_shape).mpr (.inl (by decide))

/-- A cap of 2³² seconds is accepted, and enforced as a cap of zero. -/
theorem cappedConfig_wrapped : (cappedConfig 0x100000000).validate = .ok () ∧
    NegativeShape letterQuestion 60 (aliasNxdomain 300) ∧
    ¬ StoredFor ((start (cappedConfig 0x100000000) plainHashing).2.insert (fun _ => .asStored)
      (aliasNxdomain 300) 0) letterQuestion (aliasNxdomain 300) 0 (min 60 0x100000000) := by
  refine ⟨by decide, aliasNxdomain_shape, fun hstored => ?_⟩
  obtain ⟨e, he, -⟩ := hstored
  -- the response is not accepted, and the cache is as empty as before
  have hsame : (start (cappedConfig 0x100000000) plainHashing).2.insert (fun _ => .asStored)
      (aliasNxdomain 300) 0 = (start (cappedConfig 0x100000000) plainHashing).2 := rfl
  rw [hsame, start, lookup_new] at he
  cases he

end Cache

end Dnser
