import Mathlib.Tactic.IntervalCases
import PortfolioEngine.Features.ParseKline

/-!
# The two ends of `kline_stream`

`klines_agree_iff`: the consumer reads from every published entry the candle that its source
describes, and no entry ends a life of it, exactly if each source that is published has a symbol, a
time and prices that the producer decodes to what they say and that the consumer and its database
accept. A field of the wrong type is published as the zero value, and no life of the consumer gets
past an empty price.
-/

namespace PortfolioEngine.Features

open GoJson Json Ingestion

variable {F : Type} (B : Builtins F)

/-! ## Sources -/

/-- Where an entry comes from. -/
inductive Source where
  | row (symbol : String) (row : List Json)
  | message (message : Option Json)

namespace Source

/-- The kline that is published, if any. -/
def kline : Source → Option Kline
  | row symbol r => rowKline symbol r
  | message m => messageKline m

def entry (src : Source) : Option KlineEntry := src.kline.map Kline.entry

/-- The position of a field in a row. -/
def position : String → Option ℕ
  | "t" => some 0
  | "o" => some 1
  | "h" => some 2
  | "l" => some 3
  | "c" => some 4
  | "v" => some 5
  | _ => none

/-- The value that the source has for a field: of a row, the element at its position, and of a
message, the member `data.k` and in it the member of that name. -/
def value : Source → String → Option Json
  | row symbol r, f => if f = "s" then some (.str symbol) else (position f).bind fun i => r[i]?
  | message m, f => ((m.bind (get? "data")).bind (get? "k")).bind (get? f)

/-- The values that are decoded into a field, in order. -/
def values : Source → String → List Json
  | row symbol r, f => ((row symbol r).value f).toList
  | message m, f =>
    m.toList.flatMap fun v => (taken WSFrame.fields "data" v).flatMap fun e =>
      (taken KlineEvent.fields "k" e).flatMap (taken Kline.fields f)

/-- The price that a value says. -/
def price : Json → Option F
  | .str s => B.float s
  | .num n => B.float (String.ofList (numberText n))
  | _ => none

/-- The instant that a number of milliseconds says, if it is one in whole microseconds. -/
def instant : Json → Option ℤ
  | .num n => if (n.value * 1000).den = 1 then some (n.value * 1000).num else none
  | _ => none

/-- The candle that the source describes. -/
def candle (src : Source) : Option (Candle F) := do
  let symbol ← (src.value "s").bind string?
  let time ← (src.value "t").bind instant
  let opening ← (src.value "o").bind (price B)
  let high ← (src.value "h").bind (price B)
  let low ← (src.value "l").bind (price B)
  let close ← (src.value "c").bind (price B)
  let volume ← (src.value "v").bind (price B)
  some { symbol := .str symbol, time, opening, high, low, close, volume }

/-- The source is published: a row of at least 12 elements, or a message whose last boolean `x` is
`true`. -/
def Published : Source → Prop
  | row _ r => 12 ≤ r.length
  | message m => LastTyped bool? ((message m).values "x") true

/-- The values that are decoded say what the source says, and the consumer accepts them. -/
structure Sound (src : Source) : Prop where
  symbol : ∃ s, Leaves string? "" (src.values "s") s ∧ (src.value "s").bind string? = some s ∧
    B.text s = true
  time : ∃ t τ, Leaves int64? 0 (src.values "t") t ∧ B.fromtimestamp ((t : ℤ) / 1000) = some τ ∧
    (src.value "t").bind instant = some τ
  price : ∀ f ∈ Kline.priceFields, ∃ s x, LastTyped string? (src.values f) s ∧
    B.float s = some x ∧ (src.value f).bind (price B) = some x

end Source

/-- Every published entry is read as the candle of its source, and no life of the consumer ends
with an exception. -/
def Agrees (sources : List Source) : Prop :=
  (∀ src ∈ sources, ∀ e, src.entry = some e →
    ∃ c, readEntry B e = some c ∧ src.candle B = some c) ∧
  ∀ seen, seen <+: sources.filterMap Source.entry → (life B seen).2 = false

/-! ## What is decoded -/

theorem set_symbol (f : String) (k : Kline) (v : Json) :
    (k.set f v).symbol = if f = "s" then unmarshal string? k.symbol v else k.symbol := by
  unfold Kline.set
  split <;> simp_all

theorem set_openTime (f : String) (k : Kline) (v : Json) :
    (k.set f v).openTime = if f = "t" then unmarshal int64? k.openTime v else k.openTime := by
  unfold Kline.set
  split <;> simp_all

theorem set_isClosed (f : String) (k : Kline) (v : Json) :
    (k.set f v).isClosed = if f = "x" then unmarshal bool? k.isClosed v else k.isClosed := by
  unfold Kline.set
  split <;> simp_all

theorem set_price : ∀ f ∈ Kline.priceFields, ∀ f' k v,
    (Kline.set f' k v).price f = if f' = f then unmarshal string? (k.price f) v else k.price f := by
  rw [Kline.forall_priceFields]
  refine ⟨?_, ?_, ?_, ?_, ?_⟩ <;>
    (intro f' k v; unfold Kline.set; split <;> simp_all [Kline.price])

theorem unmarshalFrame_field {α : Type} {f : String} (get : Kline → α) {step : α → Json → α}
    (hset : ∀ f' k v, get (k.set f' v) = if f' = f then step (get k) v else get k)
    (m : Option Json) :
    get (unmarshalFrame m).data.k = ((Source.message m).values f).foldl step (get {}) := by
  have hkline : ∀ k v, get (unmarshalStruct Kline.fields Kline.set k v) =
      (taken Kline.fields f v).foldl step (get k) := unmarshalStruct_field get hset
  have hevent : ∀ e v, get (unmarshalStruct KlineEvent.fields KlineEvent.set e v).k =
      ((taken KlineEvent.fields "k" v).flatMap (taken Kline.fields f)).foldl step (get e.k) := by
    intro e v
    rw [List.foldl_flatMap]
    refine unmarshalStruct_field (fun e => get e.k) (fun f' e v => ?_) e v
    unfold KlineEvent.set
    split <;> simp_all
  have hframe : ∀ x v, get (unmarshalStruct WSFrame.fields WSFrame.set x v).data.k =
      ((taken WSFrame.fields "data" v).flatMap fun e =>
        (taken KlineEvent.fields "k" e).flatMap (taken Kline.fields f)).foldl step
          (get x.data.k) := by
    intro x v
    rw [List.foldl_flatMap]
    refine unmarshalStruct_field (fun x => get x.data.k) (fun f' x v => ?_) x v
    unfold WSFrame.set
    split <;> simp_all
  cases m with
  | none => rfl
  | some v =>
    show get (unmarshalStruct WSFrame.fields WSFrame.set {} v).data.k = _
    rw [hframe]
    simp [Source.values]

theorem unmarshal_row {α : Type} {typed : Json → Option α} {zero : α} {symbol f : String}
    {r : List Json} {i : ℕ} (hf : f ≠ "s") (hi : Source.position f = some i) (hlen : i < r.length) :
    unmarshal typed zero r[i] =
      ((Source.row symbol r).values f).foldl (unmarshal typed) zero := by
  simp [Source.values, Source.value, hf, hi, hlen]

/-- The fields of a published kline hold what the values for them leave in them. -/
theorem kline_fields {src : Source} {k : Kline} (h : src.kline = some k) :
    k.symbol = (src.values "s").foldl (unmarshal string?) "" ∧
    k.openTime = (src.values "t").foldl (unmarshal int64?) 0 ∧
    ∀ f ∈ Kline.priceFields, k.price f = (src.values f).foldl (unmarshal string?) "" := by
  cases src with
  | row symbol r =>
    unfold Source.kline rowKline at h
    simp only at h
    split_ifs at h with hlen
    obtain rfl := Option.some.inj h
    refine ⟨rfl, unmarshal_row (by decide) rfl _, Kline.forall_priceFields.mpr ?_⟩
    exact ⟨unmarshal_row (by decide) rfl _, unmarshal_row (by decide) rfl _,
      unmarshal_row (by decide) rfl _, unmarshal_row (by decide) rfl _,
      unmarshal_row (by decide) rfl _⟩
  | message m =>
    unfold Source.kline messageKline at h
    simp only at h
    split_ifs at h with hclosed
    obtain rfl := Option.some.inj h
    refine ⟨unmarshalFrame_field _ set_symbol m, unmarshalFrame_field _ set_openTime m,
      fun f hf => ?_⟩
    rw [unmarshalFrame_field (fun k => k.price f) (set_price f hf) m]
    have hzero : ∀ f ∈ Kline.priceFields, ({} : Kline).price f = "" :=
      Kline.forall_priceFields.mpr ⟨rfl, rfl, rfl, rfl, rfl⟩
    rw [hzero f hf]

theorem published_iff (src : Source) : src.Published ↔ src.kline.isSome = true := by
  cases src with
  | row symbol r => exact (rowKline_isSome symbol r).symm
  | message m =>
    have hclosed := unmarshalFrame_field _ set_isClosed m
    have hleaves : Leaves bool? false ((Source.message m).values "x") true ↔
        LastTyped bool? ((Source.message m).values "x") true := by
      unfold Leaves
      simp
    show LastTyped _ _ _ ↔ (messageKline m).isSome = true
    rw [← hleaves, leaves_iff]
    unfold messageKline
    simp only
    rw [show ({} : Kline).isClosed = false from rfl] at hclosed
    rw [← hclosed]
    split_ifs with hx <;> simp [hx]

/-! ## Agreement -/

namespace Source

theorem candle_eq_some {src : Source} {c : Candle F} :
    src.candle B = some c ↔ (∃ s, (src.value "s").bind string? = some s ∧ c.symbol = .str s) ∧
      (src.value "t").bind instant = some c.time ∧
      ∀ f ∈ Kline.priceFields, (src.value f).bind (price B) = some (c.price f) := by
  unfold candle
  simp only [Option.bind_eq_bind, Option.bind_eq_some_iff (x := (src.value "s").bind string?),
    Option.bind_eq_some_iff (x := (src.value _).bind instant),
    Option.bind_eq_some_iff (x := (src.value _).bind (price B)), Kline.forall_priceFields,
    Candle.price]
  constructor
  · rintro ⟨s, hs, time, ht, opening, ho, high, hh, low, hl, close, hc, volume, hv, h⟩
    obtain rfl := Option.some.inj h
    exact ⟨⟨s, hs, rfl⟩, ht, ho, hh, hl, hc, hv⟩
  · rintro ⟨⟨s, hs, hc'⟩, ht, ho, hh, hl, hc, hv⟩
    exact ⟨s, hs, _, ht, _, ho, _, hh, _, hl, _, hc, _, hv, by rw [← hc']; rfl⟩

theorem instant_num {n : JsonNumber} {τ : ℤ} :
    instant (.num n) = some τ ↔ n.value * 1000 = τ := by
  show (if (n.value * 1000).den = 1 then _ else _) = _ ↔ _
  split_ifs with hden
  · have hnum : ((n.value * 1000).num : ℚ) = n.value * 1000 := Rat.coe_int_num_of_den_eq_one hden
    rw [Option.some.injEq, ← Int.cast_inj (α := ℚ), hnum]
  · refine iff_of_false (by rintro ⟨⟩) fun h => hden ?_
    rw [h, Rat.den_intCast]

/-- The entry of a source is handled as its candle exactly if the source is sound. -/
theorem sound_iff (src : Source) {k : Kline} (h : src.kline = some k) :
    src.Sound B ↔ ∃ c, handleEntry B k.entry = some c ∧ src.candle B = some c := by
  obtain ⟨hsymbol, htime, hprice⟩ := kline_fields h
  simp only [handleEntry_entry_eq_some, readEntry_entry_eq_some, candle_eq_some]
  constructor
  · rintro ⟨⟨s, hs, hsv, htext⟩, ⟨t, τ, ht, hτ, htv⟩, hp⟩
    rw [leaves_iff, ← hsymbol] at hs
    rw [leaves_iff, ← htime] at ht
    have hp' : ∀ f ∈ Kline.priceFields, ∃ x, B.float (k.price f) = some x ∧
        (src.value f).bind (Source.price B) = some x := by
      intro f hf
      obtain ⟨s, x, hlast, hx, hxv⟩ := hp f hf
      have hleaves : Leaves string? "" (src.values f) s := Or.inl hlast
      rw [leaves_iff, ← hprice f hf] at hleaves
      exact ⟨x, by rw [hleaves]; exact hx, hxv⟩
    obtain ⟨⟨opening, ho⟩, ⟨high, hh⟩, ⟨low, hl⟩, ⟨close, hc⟩, volume, hv⟩ :=
      Kline.forall_priceFields.mp hp'
    refine ⟨⟨.str s, τ, opening, high, low, close, volume⟩,
      ⟨⟨by rw [hs], by rw [ht]; exact hτ, ?_⟩, hs ▸ htext⟩, ⟨s, hsv, rfl⟩, htv, ?_⟩
    · exact Kline.forall_priceFields.mpr ⟨ho.1, hh.1, hl.1, hc.1, hv.1⟩
    · exact Kline.forall_priceFields.mpr ⟨ho.2, hh.2, hl.2, hc.2, hv.2⟩
  · rintro ⟨c, ⟨⟨hs, ht, hp⟩, htext⟩, ⟨s, hsv, hcs⟩, htv, hpv⟩
    rw [hs] at hcs
    obtain rfl := Json.str.inj hcs
    refine ⟨⟨k.symbol, leaves_iff.mpr hsymbol.symm, hsv, htext⟩,
      ⟨k.openTime, c.time, leaves_iff.mpr htime.symm, ht, htv⟩, fun f hf => ?_⟩
    have hleaves : Leaves string? "" (src.values f) (k.price f) :=
      leaves_iff.mpr (hprice f hf).symm
    refine ⟨k.price f, c.price f, hleaves.resolve_right ?_, hp f hf, hpv f hf⟩
    -- a price that is missing is sent as the empty text, which `float` rejects
    rintro ⟨hempty, -⟩
    have hfloat := hp f hf
    rw [hempty, B.float_empty] at hfloat
    cases hfloat

theorem value_row {symbol f : String} {r : List Json} {i : ℕ} (hs : f ≠ "s")
    (hi : position f = some i) : (row symbol r).value f = r[i]? := by
  simp [value, hs, hi]

theorem values_row {symbol f : String} {r : List Json} {i : ℕ} (hs : f ≠ "s")
    (hi : position f = some i) : (row symbol r).values f = r[i]?.toList := by
  rw [values, value_row hs hi]

theorem sound_price_row {symbol f : String} {r : List Json} {i : ℕ} (hs : f ≠ "s")
    (hi : position f = some i) :
    (∃ s x, LastTyped string? ((row symbol r).values f) s ∧ B.float s = some x ∧
      ((row symbol r).value f).bind (price B) = some x) ↔
    ∃ s x, r[i]? = some (.str s) ∧ B.float s = some x := by
  rw [values_row hs hi, value_row hs hi]
  constructor
  · rintro ⟨s, x, hlast, hx, -⟩
    refine ⟨s, x, ?_, hx⟩
    cases hv : r[i]? with
    | none => rw [hv] at hlast; cases hlast
    | some v =>
      rw [hv] at hlast
      cases v with
      | str s' => cases hlast; rfl
      | _ => cases hlast
  · rintro ⟨s, x, hv, hx⟩
    rw [hv]
    exact ⟨s, x, rfl, hx, hx⟩

theorem sound_time_row {symbol : String} {r : List Json} :
    (∃ t τ, Leaves int64? 0 ((row symbol r).values "t") t ∧
      B.fromtimestamp ((t : ℤ) / 1000) = some τ ∧
      ((row symbol r).value "t").bind instant = some τ) ↔
    ∃ n, r[0]? = some (.num n) ∧
      ((∃ t, int64? (.num n) = some t ∧ B.fromtimestamp (t / 1000) = some (t * 1000)) ∨
        int64? (.num n) = none ∧ n.value = 0) := by
  have hs : "t" ≠ "s" := by decide
  have hvalue : ∀ {n : JsonNumber} {t : ℤ}, int64? (.num n) = some t → n.value = t := fun h =>
    JsonNumber.value_of_int? (Option.eq_some_of_filter_eq_some h)
  rw [values_row hs rfl, value_row hs rfl]
  constructor
  · rintro ⟨t, τ, hleaves, ht, hv⟩
    obtain ⟨v, hr, hv⟩ := Option.bind_eq_some_iff.mp hv
    rw [hr] at hleaves ⊢
    cases v with
    | num n =>
      have hτ := instant_num.mp hv
      refine ⟨n, rfl, ?_⟩
      cases hn : int64? (.num n) with
      | none =>
        -- What is published is the zero value, so the number has to say the epoch.
        refine Or.inr ⟨rfl, ?_⟩
        rcases hleaves with hlast | ⟨rfl, -⟩
        · unfold LastTyped at hlast
          simp [hn] at hlast
        · rw [Int.cast_zero, zero_div, B.fromtimestamp_zero] at ht
          obtain rfl := Option.some.inj ht
          simpa using hτ
      | some t' =>
        refine Or.inl ⟨t', rfl, ?_⟩
        rcases hleaves with hlast | ⟨-, hnone⟩
        · unfold LastTyped at hlast
          obtain rfl : t' = t := by simpa [hn] using hlast
          rw [hvalue hn] at hτ
          rw [ht, show τ = t' * 1000 by exact_mod_cast hτ.symm]
        · rw [hnone _ (List.mem_singleton_self _)] at hn
          cases hn
    | _ => cases hv
  · rintro ⟨n, hr, ⟨t, hn, ht⟩ | ⟨hn, hzero⟩⟩
    · rw [hr]
      refine ⟨t, t * 1000, Or.inl ?_, ht, instant_num.mpr ?_⟩
      · unfold LastTyped
        simp [hn]
      · rw [hvalue hn]
        push_cast
        rfl
    · rw [hr]
      refine ⟨0, 0, Or.inr ⟨rfl, fun v hv => by rw [List.mem_singleton.mp hv, hn]⟩, ?_,
        instant_num.mpr ?_⟩
      · rw [Int.cast_zero, zero_div, B.fromtimestamp_zero]
      · rw [hzero, zero_mul, Int.cast_zero]

/-- A row is sound if its symbol can be stored, its first element is a number of milliseconds, as an
integer that `fromtimestamp` turns into that very instant or as the epoch itself, and the next five
are strings that `float` accepts. -/
theorem row_sound_iff {symbol : String} {r : List Json} :
    (row symbol r).Sound B ↔ B.text symbol = true ∧
      (∃ n, r[0]? = some (.num n) ∧
        ((∃ t, int64? (.num n) = some t ∧ B.fromtimestamp (t / 1000) = some (t * 1000)) ∨
          int64? (.num n) = none ∧ n.value = 0)) ∧
      ∀ i, 1 ≤ i → i ≤ 5 → ∃ s x, r[i]? = some (.str s) ∧ B.float s = some x := by
  constructor
  · rintro ⟨⟨s, -, hs, htext⟩, htime, hprice⟩
    obtain rfl := Option.some.inj hs
    refine ⟨htext, (sound_time_row B).mp htime, fun i hi hi' => ?_⟩
    obtain ⟨f, hf, hs, hpos⟩ : ∃ f ∈ Kline.priceFields, f ≠ "s" ∧ position f = some i := by
      interval_cases i
      exacts [⟨"o", by decide⟩, ⟨"h", by decide⟩, ⟨"l", by decide⟩, ⟨"c", by decide⟩,
        ⟨"v", by decide⟩]
    exact (sound_price_row B hs hpos).mp (hprice f hf)
  · rintro ⟨htext, htime, hprice⟩
    refine ⟨⟨symbol, Or.inl rfl, rfl, htext⟩, (sound_time_row B).mpr htime, fun f hf => ?_⟩
    have hposition : ∀ f ∈ Kline.priceFields,
        ∃ i, position f = some i ∧ f ≠ "s" ∧ 1 ≤ i ∧ i ≤ 5 := by
      rw [Kline.forall_priceFields]
      exact ⟨⟨1, by decide⟩, ⟨2, by decide⟩, ⟨3, by decide⟩, ⟨4, by decide⟩, 5, by decide⟩
    obtain ⟨i, hpos, hs, hi, hi'⟩ := hposition f hf
    exact (sound_price_row B hs hpos).mpr (hprice i hi hi')

end Source

theorem klines_agree_iff (sources : List Source) :
    Agrees B sources ↔ ∀ src ∈ sources, src.Published → src.Sound B := by
  constructor
  · rintro ⟨hread, hlives⟩ src hsrc hpub
    obtain ⟨k, hk⟩ := Option.isSome_iff_exists.mp ((published_iff src).mp hpub)
    have hentry : src.entry = some k.entry := by
      rw [Source.entry, hk]
      rfl
    obtain ⟨c, hc, hcandle⟩ := hread src hsrc k.entry hentry
    -- The life that sees all entries gets past this one.
    have hlife := hlives _ (List.prefix_refl _)
    rw [← Bool.not_eq_true, life_raised_iff] at hlife
    obtain ⟨c', hc'⟩ := Option.ne_none_iff_exists'.mp fun hnone =>
      hlife ⟨k.entry, List.mem_filterMap.mpr ⟨src, hsrc, hentry⟩, hnone⟩
    obtain ⟨hc'', htext⟩ := (handleEntry_entry_eq_some B).mp hc'
    obtain rfl := Option.some.inj (hc.symm.trans hc'')
    exact (Source.sound_iff B src hk).mpr ⟨c, hc', hcandle⟩
  · intro hsound
    have hhandled : ∀ src ∈ sources, ∀ e, src.entry = some e →
        ∃ c, handleEntry B e = some c ∧ src.candle B = some c := by
      intro src hsrc e he
      obtain ⟨k, hk, rfl⟩ := Option.map_eq_some_iff.mp he
      have hpub := (published_iff src).mpr (Option.isSome_iff_exists.mpr ⟨k, hk⟩)
      exact (Source.sound_iff B src hk).mp (hsound src hsrc hpub)
    refine ⟨fun src hsrc e he => ?_, fun seen hseen => ?_⟩
    · obtain ⟨c, hc, hcandle⟩ := hhandled src hsrc e he
      exact ⟨c, Option.eq_some_of_filter_eq_some hc, hcandle⟩
    · rw [← Bool.not_eq_true, life_raised_iff]
      rintro ⟨e, he, hnone⟩
      obtain ⟨src, hsrc, hsome⟩ := List.mem_filterMap.mp (hseen.subset he)
      obtain ⟨c, hc, -⟩ := hhandled src hsrc e hsome
      rw [hnone] at hc
      cases hc

/-- `float` on decimal numbers, instants between the years 1 and 9999, and texts without the
character 0. -/
def decimalBuiltins : Builtins ℚ where
  float s := (readNumber s.toList).bind fun (n, rest) => if rest = [] then some n.value else none
  fromtimestamp t :=
    if -62135596800 ≤ t ∧ t < 253402300800 then some (t * 1000000).floor else none
  text s := !s.toList.contains (Char.ofNat 0)
  float_empty := rfl
  fromtimestamp_zero := by
    rw [if_pos (by norm_num), zero_mul]
    rfl

/-- A row whose open price is a number. -/
def numericOpen : List Json :=
  [.num (.ofInt 60000), .num ⟨false, 1, [⟨5, by decide⟩], none⟩, .str "2", .str "1", .str "1.5",
    .str "10", .num (.ofInt 119999), .str "15", .num (.ofInt 4), .str "5", .str "7.5", .str "0"]

/-- It is published with an empty open price, which the consumer cannot read. -/
theorem numericOpen_not_agrees : ¬ Agrees decimalBuiltins [.row "BTCUSDT" numericOpen] := by
  rintro ⟨hread, -⟩
  obtain ⟨k, hk⟩ := Option.isSome_iff_exists.mp ((rowKline_isSome "BTCUSDT" numericOpen).mpr le_rfl)
  have hkline : Source.kline (.row "BTCUSDT" numericOpen) = some k := hk
  obtain ⟨-, -, hprice⟩ := kline_fields hkline
  have hempty : k.price "o" = "" := hprice "o" (by decide)
  obtain ⟨c, hc, -⟩ := hread _ (List.mem_singleton_self _) k.entry
    (congrArg (Option.map Kline.entry) hk)
  obtain ⟨-, -, hfloat⟩ := (readEntry_entry_eq_some decimalBuiltins).mp hc
  have hopen := hfloat "o" (by decide)
  rw [hempty, decimalBuiltins.float_empty] at hopen
  cases hopen

end PortfolioEngine.Features
