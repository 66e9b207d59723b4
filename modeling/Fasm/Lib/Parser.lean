import Mathlib.Data.List.Forall2

/-!
# Prefix parsers and what they read back

A parser consumes a prefix of a token list and returns the rest, or fails.  The
relation that round-trip proofs need is `Reads p bs x`: whatever follows it, the
prefix `bs` is read as `x` and nothing else is consumed.  It composes along
`bind`, so the round trip of a nested format is assembled from those of its
fields, in the order in which the parser reads them.

`Parses` says both that and its converse: the parser reads what spells the symbols
of a value, and nothing else.  It composes in the same way.
-/

universe u v

/-- A parser over tokens `σ` with errors `ε`; the state is the unread input. -/
abbrev Parser (σ : Type u) (ε : Type v) (α : Type u) := StateT (List σ) (Except ε) α

namespace Parser

variable {σ : Type u} {ε : Type v} {α β : Type u}

/-- Fail with an error. -/
def fail (e : ε) : Parser σ ε α := fun _ => .error e

/-- Read one token, failing with `eof` at the end of the input. -/
def item (eof : ε) : Parser σ ε σ
  | [] => .error eof
  | b :: bs => .ok (b, bs)

/-- Read exactly `n` tokens, failing with `eof` if fewer are left. -/
def take (eof : ε) (n : Nat) : Parser σ ε (List σ) := fun bs =>
  if n ≤ bs.length then .ok (bs.take n, bs.drop n) else .error eof

/-- Use the parser `n` times and collect the results in order. -/
def count (p : Parser σ ε α) : Nat → Parser σ ε (List α)
  | 0 => pure []
  | n + 1 => do
    let x ← p
    let xs ← count p n
    return x :: xs

/-- The prefix `bs` is read as `x`, whatever follows it. -/
def Reads (p : Parser σ ε α) (bs : List σ) (x : α) : Prop :=
  ∀ rest, p (bs ++ rest) = .ok (x, rest)

namespace Reads

theorem pure (x : α) : Reads (Pure.pure x : Parser σ ε α) [] x := fun _ => rfl

/-- Sequencing reads the concatenation. -/
theorem bind {p : Parser σ ε α} {k : α → Parser σ ε β} {as bs : List σ} {x : α} {y : β}
    (hp : Reads p as x) (hk : Reads (k x) bs y) : Reads (p >>= k) (as ++ bs) y := by
  intro rest
  change Except.bind (p (as ++ bs ++ rest)) (fun r => k r.1 r.2) = _
  rw [List.append_assoc, hp]
  exact hk rest

/-- The last field of a record: the value read is wrapped. -/
theorem map {p : Parser σ ε α} {f : α → β} {bs : List σ} {x : α}
    (hp : Reads p bs x) : Reads (p >>= fun a => Pure.pure (f a)) bs (f x) := by
  have h := hp.bind (k := fun a => Pure.pure (f a)) (Reads.pure (f x))
  rwa [List.append_nil] at h

/-- A lifted result that succeeds consumes nothing. -/
theorem lift {r : Except ε α} {x : α} (h : r = .ok x) :
    Reads (liftM r : Parser σ ε α) [] x := by
  intro rest
  subst h
  rfl

theorem item (eof : ε) (b : σ) : Reads (Parser.item eof) [b] b := fun _ => rfl

theorem take (eof : ε) (bs : List σ) : Reads (Parser.take eof bs.length) bs bs := by
  intro rest
  simp [Parser.take]

end Reads

/-! ## What is left to read -/

/-- Behind the prefix `as`, the parser goes on as `k`. -/
def GoesOn (p : Parser σ ε α) (as : List σ) (k : Parser σ ε α) : Prop :=
  ∀ rest, p (as ++ rest) = k rest

/-- The parser reads nothing from what begins with `as`. -/
def Refuses (p : Parser σ ε α) (as : List σ) : Prop := ∀ rest r, p (as ++ rest) ≠ .ok r

/-- What has been read does not depend on what follows it. -/
def Local (p : Parser σ ε α) : Prop :=
  ∀ ⦃bs rest : List σ⦄ ⦃x : α⦄, p bs = .ok (x, rest) →
    ∀ more, p (bs ++ more) = .ok (x, rest ++ more)

namespace Local

theorem pure (x : α) : Local (Pure.pure x : Parser σ ε α) := by
  intro bs rest y h more
  cases h
  rfl

theorem bind {p : Parser σ ε α} {k : α → Parser σ ε β} (hp : Local p) (hk : ∀ a, Local (k a)) :
    Local (p >>= k) := by
  intro bs rest y h more
  change Except.bind (p bs) (fun r => k r.1 r.2) = _ at h
  change Except.bind (p (bs ++ more)) (fun r => k r.1 r.2) = _
  cases hx : p bs with
  | error e => rw [hx] at h; cases h
  | ok r =>
    rw [hx] at h
    rw [hp hx more]
    exact hk r.1 h more

end Local

namespace GoesOn

variable {p p' p'' : Parser σ ε α} {k : α → Parser σ ε β} {as bs : List σ} {x : α}

theorem of_reads (hp : Reads p as x) : GoesOn (p >>= k) as (k x) := by
  intro rest
  change Except.bind (p (as ++ rest)) (fun r => k r.1 r.2) = _
  rw [hp]
  rfl

theorem trans (h : GoesOn p as p') (h' : GoesOn p' bs p'') : GoesOn p (as ++ bs) p'' := by
  intro rest
  rw [List.append_assoc, h, h']

/-- It goes on in front of what comes then. -/
theorem bind (h : GoesOn p as p') (k : α → Parser σ ε β) : GoesOn (p >>= k) as (p' >>= k) := by
  intro rest
  change Except.bind (p (as ++ rest)) (fun r => k r.1 r.2) = _
  rw [h]
  rfl

/-- The elements of a counted list are read, up to one that is read in part. -/
theorem count {enc : α → List σ} (h : GoesOn p as p') (m : Nat) :
    ∀ xs : List α, (∀ x ∈ xs, Reads p (enc x) x) →
      GoesOn (p.count (xs.length + (m + 1))) (xs.flatMap enc ++ as)
        (p' >>= fun x => p.count m >>= fun ys => Pure.pure (xs ++ x :: ys))
  | [], _ => by
    rw [List.length_nil, Nat.zero_add]
    exact h.bind _
  | x :: xs, hxs => by
    have hx := of_reads (k := fun x => p.count (xs.length + (m + 1)) >>= fun ys =>
      Pure.pure (x :: ys)) (hxs x List.mem_cons_self)
    have hrest := (count h m xs fun y hy => hxs y (List.mem_cons_of_mem x hy)).bind
      fun ys => Pure.pure (x :: ys)
    simp only [bind_assoc, pure_bind] at hrest
    rw [List.length_cons, Nat.add_right_comm, List.flatMap_cons, List.append_assoc]
    exact hx.trans hrest

end GoesOn

/-! ## Formats

A format writes a value as a list of symbols, and a token may spell a symbol in more
than one way. -/

/-- The parser reads exactly the values with `ok`, each from the lists of tokens that spell its
symbols. -/
structure Parses {τ : Type*} (S : σ → τ → Prop) (p : Parser σ ε α) (ok : α → Prop)
    (symbols : α → List τ) : Prop where
  reads : ∀ {x as}, ok x → List.Forall₂ S as (symbols x) → Reads p as x
  sound : ∀ {bs x rest}, p bs = .ok (x, rest) →
    ok x ∧ ∃ as, bs = as ++ rest ∧ List.Forall₂ S as (symbols x)

namespace Parses

variable {τ : Type*} {S : σ → τ → Prop} {p : Parser σ ε α} {ok : α → Prop}
  {symbols : α → List τ}

theorem append (h : Parses S p ok symbols) : Local p := by
  intro bs rest x hx more
  obtain ⟨hok, as, rfl, has⟩ := h.sound hx
  rw [List.append_assoc]
  exact h.reads hok has _

/-- The same format described in another way. -/
theorem congr {ok' : α → Prop} {symbols' : α → List τ} (h : Parses S p ok symbols)
    (hok : ∀ x, ok x ↔ ok' x) (hsym : ∀ x, ok' x → symbols x = symbols' x) :
    Parses S p ok' symbols' := by
  constructor
  · intro x as hx has
    rw [← hsym x hx] at has
    exact h.reads ((hok x).mpr hx) has
  · intro bs x rest hx
    obtain ⟨hx', as, hbs, has⟩ := h.sound hx
    have hok' := (hok x).mp hx'
    rw [hsym x hok'] at has
    exact ⟨hok', as, hbs, has⟩

theorem pure (x₀ : α) : Parses S (Pure.pure x₀ : Parser σ ε α) (· = x₀) fun _ => [] := by
  constructor
  · rintro x as rfl has
    rw [List.forall₂_nil_right_iff.mp has]
    exact Reads.pure x
  · intro bs x rest hx
    cases hx
    exact ⟨rfl, [], rfl, .nil⟩

theorem fail (e : ε) : Parses S (Parser.fail e : Parser σ ε α) (fun _ => False) symbols :=
  ⟨fun h => h.elim, fun h => nomatch h⟩

/-- A lifted result consumes nothing. -/
theorem lift (r : Except ε α) : Parses S (liftM r : Parser σ ε α) (r = .ok ·) fun _ => [] := by
  constructor
  · intro x as hx has
    rw [List.forall₂_nil_right_iff.mp has]
    exact Reads.lift hx
  · intro bs x rest hx
    cases r with
    | error e => cases hx
    | ok y => cases hx; exact ⟨rfl, [], rfl, .nil⟩

/-- A field of a record, which is read first, and the other fields. -/
theorem field {k : α → Parser σ ε β} {ok' : β → Prop} {symbols' : β → List τ} (proj : β → α)
    (hp : Parses S p ok symbols) (hk : ∀ a, Parses S (k a) (fun y => proj y = a ∧ ok' y) symbols') :
    Parses S (p >>= k) (fun y => ok (proj y) ∧ ok' y) fun y => symbols (proj y) ++ symbols' y := by
  constructor
  · rintro y as ⟨hy, hy'⟩ has
    have hfst := List.forall₂_take_append _ _ _ has
    have hsnd := List.forall₂_drop_append _ _ _ has
    have h := (hp.reads hy hfst).bind ((hk (proj y)).reads ⟨rfl, hy'⟩ hsnd)
    rwa [List.take_append_drop] at h
  · intro bs y rest h
    change Except.bind (p bs) (fun r => k r.1 r.2) = _ at h
    cases hx : p bs with
    | error e => rw [hx] at h; cases h
    | ok r =>
      rw [hx] at h
      obtain ⟨hr, as, rfl, has⟩ := hp.sound hx
      obtain ⟨⟨hproj, hy⟩, as', hrest, has'⟩ := (hk r.1).sound h
      rw [hproj]
      exact ⟨⟨hr, hy⟩, as ++ as', by rw [hrest, List.append_assoc],
        List.rel_append has has'⟩

/-- The last field of a record: the value read is wrapped. -/
theorem map {f : α → β} (proj : β → α) (hp : Parses S p ok symbols) (hf : ∀ a, proj (f a) = a) :
    Parses S (p >>= fun a => Pure.pure (f a)) (fun y => ok (proj y) ∧ y = f (proj y))
      fun y => symbols (proj y) := by
  have hk : ∀ a, Parses S (Pure.pure (f a) : Parser σ ε β)
      (fun y => proj y = a ∧ y = f (proj y)) fun _ => [] := fun a =>
    (Parses.pure (f a)).congr (fun y => by
      constructor
      · rintro rfl
        exact ⟨hf a, by rw [hf]⟩
      · rintro ⟨rfl, h⟩
        exact h) fun _ _ => rfl
  exact (hp.field proj hk).congr (fun _ => Iff.rfl) fun y _ => List.append_nil _

/-- One token. -/
theorem item (eof : ε) {emb : σ → τ} (hemb : ∀ b c, S b (emb c) ↔ b = c) :
    Parses S (Parser.item eof) (fun _ => True) fun b => [emb b] := by
  constructor
  · intro x as _ has
    obtain ⟨b, as', hb, hnil, rfl⟩ := List.forall₂_cons_right_iff.mp has
    rw [List.forall₂_nil_right_iff.mp hnil, (hemb b x).mp hb]
    exact Reads.item eof x
  · intro bs x rest h
    cases bs with
    | nil => cases h
    | cons b bs =>
      cases h
      exact ⟨trivial, [_], rfl, .cons ((hemb _ _).mpr rfl) .nil⟩

theorem forall₂_emb {emb : σ → τ} (hemb : ∀ b c, S b (emb c) ↔ b = c) {as bs : List σ} :
    List.Forall₂ S as (bs.map emb) ↔ as = bs := by
  rw [List.forall₂_map_right_iff]
  simp only [hemb, List.forall₂_eq_eq_eq]

/-- A number of tokens. -/
theorem take (eof : ε) {emb : σ → τ} (hemb : ∀ b c, S b (emb c) ↔ b = c) (n : Nat) :
    Parses S (Parser.take eof n) (·.length = n) (·.map emb) := by
  constructor
  · rintro x as rfl has
    rw [(forall₂_emb hemb).mp has]
    exact Reads.take eof x
  · intro bs x rest h
    unfold Parser.take at h
    split at h
    case isTrue hn =>
      cases h
      refine ⟨List.length_take_of_le hn, _, (List.take_append_drop n bs).symm, ?_⟩
      exact (forall₂_emb hemb).mpr rfl
    case isFalse => cases h

/-- A counted list. -/
theorem count (hp : Parses S p ok symbols) : ∀ n : Nat,
    Parses S (p.count n) (fun xs => xs.length = n ∧ ∀ x ∈ xs, ok x) (·.flatMap symbols)
  | 0 => (Parses.pure []).congr (fun xs => by
      constructor
      · rintro rfl
        exact ⟨rfl, nofun⟩
      · exact fun h => List.length_eq_zero_iff.mp h.1) fun xs h => by
        rw [List.length_eq_zero_iff.mp h.1]
        rfl
  | n + 1 => by
    constructor
    · rintro xs as ⟨hlen, hxs⟩ has
      cases xs with
      | nil => cases hlen
      | cons x xs =>
        have hfst := List.forall₂_take_append _ _ _ has
        have hsnd := List.forall₂_drop_append _ _ _ has
        have hx := hp.reads (hxs x (.head _)) hfst
        have hall := (count hp n).reads ⟨Nat.succ.inj hlen, fun y hy => hxs y (.tail _ hy)⟩ hsnd
        have h := hx.bind (k := fun x => p.count n >>= fun xs => Pure.pure (x :: xs))
          (hall.map (f := fun xs => x :: xs))
        rwa [List.take_append_drop] at h
    · intro bs xs rest h
      change Except.bind (p bs) (fun r => Except.bind (p.count n r.2) fun r' => _) = _ at h
      cases hx : p bs with
      | error e => rw [hx] at h; cases h
      | ok r =>
        cases hxs : p.count n r.2 with
        | error e => simp only [hx, Except.bind, hxs] at h; cases h
        | ok r' =>
          simp only [hx, Except.bind, hxs] at h
          cases h
          obtain ⟨hr, as, rfl, has⟩ := hp.sound hx
          obtain ⟨⟨hlen, hall⟩, as', hrest, has'⟩ := (count hp n).sound hxs
          refine ⟨⟨congrArg (· + 1) hlen, List.forall_mem_cons.mpr ⟨hr, hall⟩⟩, as ++ as', ?_, ?_⟩
          · rw [hrest, List.append_assoc]
          · exact List.rel_append has has'

end Parses

end Parser
