import Mathlib.Data.Finset.Card
import Mathlib.Data.Finset.Dedup
import Polyphony.Proofs.Notation.PitchReading
import Polyphony.Proofs.Notation.Trouble

/-! # What a cache holds

A cache is used for single pitches and for whole compositions, one after another. It answers each
of them like a cache of its own, and what it holds can be told from the calls alone: the texts that
have been resolved, up to the token where a composition has gone wrong.
-/
namespace Polyphony.Notation

/-- The cache has an entry for each of these texts, its frequency, and no other entry. -/
structure PitchCache.Holds (c : PitchCache) (texts : List String) : Prop where
  found : ∀ text ∈ texts, ∃ freq, frequency? text = .ok freq ∧ c.get? text = some freq
  absent : ∀ text ∉ texts, c.get? text = none
  size : c.size = texts.toFinset.card

namespace PitchCache

variable {c : PitchCache} {texts : List String} {text : String} {freq : Float}

theorem holds_empty : empty.Holds [] :=
  ⟨nofun, fun text _ => get?_empty text, size_empty⟩

theorem Holds.mem_of_get? (h : c.Holds texts) (hget : c.get? text = some freq) : text ∈ texts := by
  by_contra hmem
  rw [h.absent text hmem] at hget
  cases hget

theorem Holds.sound (h : c.Holds texts) : c.Sound := by
  intro text freq hget
  obtain ⟨freq', hfreq, hget'⟩ := h.found text (h.mem_of_get? hget)
  rw [hget] at hget'
  rw [hfreq, Option.some.inj hget']

theorem size_insert (hget : c.get? text = none) :
    size ⟨c.entries.insert text freq⟩ = c.size + 1 := by
  have hmem : text ∉ c.entries := by
    rw [Std.HashMap.mem_iff_isSome_getElem?, show c.entries[text]? = none from hget]
    exact Bool.false_ne_true
  rw [size, Std.HashMap.size_insert, if_neg hmem, size]

/-- A text that has a frequency comes in, unless it is there. -/
theorem Holds.resolve (h : c.Holds texts) (hfreq : frequency? text = .ok freq) :
    (c.resolve text).2.Holds (texts ++ [text]) := by
  unfold PitchCache.resolve
  cases hget : c.get? text with
  | some freq' =>
    have hmem := h.mem_of_get? hget
    refine ⟨?_, fun other hother => h.absent other (by simp_all), ?_⟩
    · intro other hother
      rcases List.mem_append.mp hother with hother | hother
      · exact h.found other hother
      · rw [List.mem_singleton.mp hother]
        exact h.found text hmem
    · rw [h.size, List.toFinset_append]
      simp [hmem]
  | none =>
    have hmem : text ∉ texts := by
      intro hmem
      obtain ⟨_, _, hget'⟩ := h.found text hmem
      rw [hget] at hget'
      cases hget'
    simp only [hfreq]
    refine ⟨?_, ?_, ?_⟩
    · intro other hother
      rw [get?_insert]
      by_cases heq : text = other
      · exact ⟨freq, heq ▸ hfreq, if_pos heq⟩
      · rw [if_neg heq]
        exact h.found other (by simp_all [eq_comm])
    · intro other hother
      rw [get?_insert, if_neg (by simp_all [eq_comm])]
      exact h.absent other (by simp_all)
    · rw [size_insert hget, h.size, List.toFinset_append,
        Finset.card_union_of_disjoint (by simpa using hmem)]
      rfl

theorem resolve_of_error {cause : Cause} (h : frequency? text = .error cause) :
    (c.resolve text).2 = c := by
  unfold PitchCache.resolve
  cases c.get? text with
  | some freq => rfl
  | none => simp only [h]

end PitchCache

section

variable {α β : Type}

def Learns (m : Reading α) (texts : List String) : Prop :=
  ∀ desk known, desk.cache.Holds known → (leftBehind (m desk)).cache.Holds (known ++ texts)

theorem learns_pure (a : α) : Learns (pure a) [] := by
  intro desk known h
  rw [List.append_nil]
  exact h

theorem learns_throw (e : Error) : Learns (throw e : Reading α) [] := by
  intro desk known h
  rw [List.append_nil]
  exact h

variable {m : Reading α} {f : α → Reading β} {texts more : List String}

theorem Learns.bind_ok {a : α} (hm : Learns m texts) (hgives : Says m (.ok a))
    (hf : Learns (f a) more) : Learns (m >>= f) (texts ++ more) := by
  intro desk known h
  have hleft := hm desk known h
  have hanswer := (hgives desk h.sound).1
  change (leftBehind (EStateM.bind m f desk)).cache.Holds _
  rw [EStateM.bind, ← List.append_assoc]
  cases hrun : m desk with
  | ok a' desk' =>
    rw [hrun] at hleft hanswer
    obtain rfl := Except.ok.inj hanswer
    exact hf desk' _ hleft
  | error e desk' =>
    rw [hrun] at hanswer
    cases hanswer

/-- A reading that fails does not come to the texts of the next. -/
theorem Learns.bind_error {e : Error} (hm : Learns m texts) (hgives : Says m (.error e)) :
    Learns (m >>= f) texts := by
  intro desk known h
  have hleft := hm desk known h
  have hanswer := (hgives desk h.sound).1
  change (leftBehind (EStateM.bind m f desk)).cache.Holds _
  rw [EStateM.bind]
  cases hrun : m desk with
  | ok a desk' =>
    rw [hrun] at hanswer
    cases hanswer
  | error e' desk' =>
    rw [hrun] at hleft
    exact hleft

theorem Learns.bind_pure {r : Except Error α} {g : α → β} (hm : Learns m texts)
    (hgives : Says m r) : Learns (m >>= fun a => pure (g a)) texts := by
  cases r with
  | ok a =>
    have h := hm.bind_ok (f := fun a => pure (g a)) hgives (learns_pure (g a))
    rwa [List.append_nil] at h
  | error e => exact hm.bind_error hgives

end

theorem learns_resolve {col : Nat} {pitch : String} {freq : Float}
    (h : frequency? pitch = .ok freq) : Learns (resolve col pitch) [pitch] := by
  intro desk known hholds
  have hcache := hholds.resolve h
  rw [resolve]
  revert hcache
  rcases desk.cache.resolve pitch with ⟨_ | _, cache⟩ <;> exact id

theorem learns_resolves {col : Nat} {pitches : List String}
    (h : ∀ pitch ∈ pitches, ∃ freq, frequency? pitch = .ok freq) :
    Learns (pitches.mapM (resolve col)) pitches := by
  induction pitches with
  | nil => exact learns_pure []
  | cons pitch pitches ih =>
    obtain ⟨hpitch, hpitches⟩ := List.forall_mem_cons.mp h
    obtain ⟨freq, hfreq⟩ := hpitch
    have hgives := says_resolve col pitch
    rw [pitchAt, hfreq] at hgives
    rw [List.mapM_cons]
    exact (learns_resolve hfreq).bind_ok hgives
      ((ih hpitches).bind_pure (says_mapM (says_resolve col) pitches))

theorem learns_decode (col : Nat) (key value : String) : Learns (decode col key value) [] := by
  intro desk known h
  rw [decode, List.append_nil]
  cases readCommand key value with
  | ok r => exact h
  | error cause => exact h

theorem learns_head {token : Token}
    (h : ∀ text ∈ token.texts, ∃ freq, frequency? text = .ok freq) :
    Learns (head token) token.texts := by
  rcases token with ⟨lexeme, col⟩
  cases lexeme with
  | rest => exact learns_pure _
  | note pitch =>
    obtain ⟨freq, hfreq⟩ := h pitch (by simp [Token.texts, Lexeme.pitches?])
    exact (learns_resolve hfreq).bind_pure (says_resolve col pitch)
  | chord pitches => exact (learns_resolves h).bind_pure (says_mapM (says_resolve col) pitches)
  | command key value => exact (learns_decode col key value).bind_pure (says_decode col key value)
  | duration num den => exact learns_throw _

def textsOf (tokens : List Token) : List String := tokens.flatMap Token.texts

/-- What is left of a row of tokens by a reading: nothing, or the token that its error points at
and those behind. -/
def Leaves : Except Error (List Event) → List Token → Prop
  | .ok _, rest => rest = []
  | .error e, rest => ∃ token more, rest = token :: more ∧ e.col = token.col

theorem Leaves.map {r : Except Error (List Event)} {rest : List Token} (h : Leaves r rest)
    (f : List Event → List Event) : Leaves (f <$> r) rest := by
  cases r <;> exact h

/-- A token whose texts have frequencies fails for another reason than its texts. -/
theorem Token.texts_of_error {token : Token} {e : Error}
    (hfreq : ∀ text ∈ token.texts, ∃ freq, frequency? text = .ok freq)
    (h : token.meaning = .error e) : token.texts = [] := by
  have hpitch {text : String} (htext : text ∈ token.texts) : pitchAt token.col text ≠ .error e := by
    obtain ⟨freq, hfreq⟩ := hfreq text htext
    rw [pitchAt, hfreq]
    intro heq
    cases heq
  rcases token with ⟨lexeme, col⟩
  cases lexeme with
  | rest | duration | command => rfl
  | note pitch =>
    rcases bind_eq_error.mp h with herror | ⟨_, -, hpure⟩
    · exact absurd herror (hpitch (by simp [Token.texts, Lexeme.pitches?]))
    · cases hpure
  | chord pitches =>
    rcases bind_eq_error.mp h with herror | ⟨_, -, hpure⟩
    · obtain ⟨pitch, hmem, herror⟩ := exists_mem_of_mapM_error herror
      exact absurd herror (hpitch hmem)
    · cases hpure

theorem takeLength_eq_ok {tokens rest : List Token} {duration : Beats}
    (h : takeLength tokens = .ok (duration, rest)) :
    ∃ lengths, tokens = lengths ++ rest ∧ textsOf lengths = [] := by
  unfold takeLength at h
  split at h
  · split at h
    · cases h
      exact ⟨[_], rfl, rfl⟩
    · cases h
  · cases h
    exact ⟨[], rfl, rfl⟩

theorem takeLength_eq_error {tokens : List Token} {e : Error} (h : takeLength tokens = .error e) :
    ∃ next rest, tokens = next :: rest ∧ e.col = next.col := by
  unfold takeLength at h
  split at h
  · split at h
    · cases h
    · cases h
      exact ⟨_, _, rfl, rfl⟩
  · cases h

/-- A reading resolves the texts of the tokens before the one that it fails at. -/
theorem eventsFrom_learns (tokens : List Token) (done : Array Event)
    (hfreq : ∀ token ∈ tokens, ∀ text ∈ token.texts, ∃ freq, frequency? text = .ok freq) :
    ∃ before rest, tokens = before ++ rest ∧ Leaves (meaning tokens) rest ∧
      Learns (eventsFrom tokens done) (textsOf before) := by
  -- unit by unit; a unit whose duration fails has been resolved before that
  fun_induction eventsFrom tokens done with
  | case1 done => exact ⟨[], [], rfl, rfl, learns_pure _⟩
  | case2 done token tokens ihCommand ihSound =>
    obtain ⟨hhead, htail⟩ := List.forall_mem_cons.mp hfreq
    have hlearns := learns_head hhead
    have hgives := says_head token
    rw [meaning_cons]
    cases hmeaning : token.meaning with
    | error e =>
      rw [hmeaning] at hgives
      rw [Token.texts_of_error hhead hmeaning] at hlearns
      exact ⟨[], token :: tokens, rfl, ⟨token, tokens, rfl, (Token.meaning_error hmeaning).col⟩,
        hlearns.bind_error hgives⟩
    | ok head =>
      rw [hmeaning] at hgives
      cases head with
      | command command =>
        obtain ⟨before, rest, rfl, hleaves, hrest⟩ := ihCommand command htail
        exact ⟨token :: before, rest, rfl, hleaves.map _, hlearns.bind_ok hgives hrest⟩
      | sound freqs =>
        cases hlength : takeLength tokens with
        | error e =>
          obtain ⟨next, rest, rfl, hcol⟩ := takeLength_eq_error hlength
          refine ⟨[token], next :: rest, rfl, ⟨next, rest, rfl, hcol⟩, ?_⟩
          exact hlearns.bind_ok hgives (learns_throw e)
        | ok r =>
          obtain ⟨duration, more⟩ := r
          obtain ⟨lengths, rfl, hnone⟩ := takeLength_eq_ok hlength
          have hmore := fun token h => htail token (List.mem_append_right lengths h)
          obtain ⟨before, rest, rfl, hleaves, hrest⟩ := ihSound freqs duration more hlength hmore
          refine ⟨token :: (lengths ++ before), rest, by simp, hleaves.map _, ?_⟩
          rw [textsOf, List.flatMap_cons, List.flatMap_append, ← textsOf, hnone]
          exact hlearns.bind_ok hgives hrest

/-- One use of a cache: a pitch that stands alone, or a whole composition. -/
inductive Call where
  | pitch (text : String)
  | composition (source : String)

inductive Answer where
  | frequency (answer : Except Cause Float)
  | events (answer : Except Error (List Event))

def Call.run (desk : Desk) : Call → Answer × Desk
  | .pitch text =>
    (.frequency (desk.cache.resolve text).1, { desk with cache := (desk.cache.resolve text).2 })
  | .composition source =>
    (.events (outcome (events source desk)), leftBehind (events source desk))

/-- The texts that a composition resolves: those of all its tokens, or of the tokens before the one
that is refused. What cannot be cut into tokens resolves none. -/
def resolvedBy (source : String) : List String :=
  match scan source, read source with
  | .ok tokens, .ok _ => textsOf tokens
  | .ok tokens, .error e => textsOf (tokens.filter (·.col < e.col))
  | .error _, _ => []

def Call.resolved : Call → List String
  | .pitch text =>
    match frequency? text with
    | .ok _ => [text]
    | .error _ => []
  | .composition source => resolvedBy source

def Desk.after (calls : List Call) : Desk :=
  calls.foldl (fun desk call => (call.run desk).2) .empty

theorem events_learns (source : String) : Learns (events source) (resolvedBy source) := by
  intro desk known h
  rw [events, resolvedBy, read_eq]
  cases hscan : scan source with
  | error e =>
    rw [List.append_nil]
    exact h
  | ok tokens =>
    obtain ⟨before, rest, hsplit, hleaves, hlearns⟩ :=
      eventsFrom_learns tokens #[] (scan_frequency? hscan)
    have hleft := hlearns desk known h
    rw [show (Except.ok tokens >>= meaning) = meaning tokens from rfl]
    cases hmeaning : meaning tokens with
    | ok es =>
      rw [hmeaning] at hleaves
      obtain rfl : rest = [] := hleaves
      rw [List.append_nil] at hsplit
      subst hsplit
      exact hleft
    | error e =>
      rw [hmeaning] at hleaves
      obtain ⟨token, more, rfl, hcol⟩ := hleaves
      subst hsplit
      obtain ⟨-, -, -, hfilter⟩ := scan_before hscan
      simp only [hcol, hfilter]
      exact hleft

theorem Call.learns (call : Call) {desk : Desk} {known : List String}
    (h : desk.cache.Holds known) : (call.run desk).2.cache.Holds (known ++ call.resolved) := by
  cases call with
  | composition source => exact events_learns source desk known h
  | pitch text =>
    change (desk.cache.resolve text).2.Holds _
    rw [resolved]
    cases hfreq : frequency? text with
    | ok freq => exact h.resolve hfreq
    | error cause =>
      rw [PitchCache.resolve_of_error hfreq, List.append_nil]
      exact h

theorem Desk.after_holds (calls : List Call) :
    (Desk.after calls).cache.Holds (calls.flatMap Call.resolved) := by
  induction calls using List.reverseRecOn with
  | nil => exact PitchCache.holds_empty
  | append_singleton calls call ih =>
    rw [after, List.foldl_append, List.flatMap_append, List.flatMap_singleton]
    exact call.learns ih

/-- What a shared cache does to a call cannot be seen from its answer, which is that of a cache of
its own. What the cache holds behind the call are the texts that the calls so far have resolved,
and none of its entries is ever lost or changed. -/
theorem Call.run_after (past : List Call) (call : Call) :
    (call.run (Desk.after past)).1 = (call.run .empty).1 ∧
      (call.run (Desk.after past)).2.cache.Holds ((past ++ [call]).flatMap Call.resolved) ∧
      ∀ text freq, (Desk.after past).cache.get? text = some freq →
        (call.run (Desk.after past)).2.cache.get? text = some freq := by
  have hpast := Desk.after_holds past
  have hnext := call.learns hpast
  refine ⟨?_, ?_, fun text freq hget => ?_⟩
  · cases call with
    | pitch text =>
      exact congrArg Answer.frequency ((hpast.sound.resolve_fst text).trans
        (PitchCache.sound_empty.resolve_fst text).symm)
    | composition source => exact congrArg Answer.events (outcome_events hpast.sound source)
  · rw [List.flatMap_append, List.flatMap_singleton]
    exact hnext
  · obtain ⟨freq', hfreq, hget'⟩ :=
      hnext.found text (List.mem_append_left _ (hpast.mem_of_get? hget))
    rw [hget', Except.ok.inj (hfreq.symm.trans (hpast.sound text freq hget))]

end Polyphony.Notation
