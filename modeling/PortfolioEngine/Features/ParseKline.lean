import PortfolioEngine.Ingestion.Kline

/-!
# Reading klines back

`_parse_kline` of `feature_engineering/main.py` and what its consume loop makes of the entries of
`kline_stream`. The loop reads from the id 0 whenever the service starts, and an exception ends the
service. Reading an entry can raise, and so can storing its price; what comes after that works on
floats and on a key that the database has taken.
-/

namespace PortfolioEngine.Features

open Json Ingestion

variable {F : Type}

/-- The builtins of Python on floats `F`, and the texts that the database takes as a symbol. An
exception is `none`; an instant is in microseconds. -/
structure Builtins (F : Type) where
  float : String → Option F
  fromtimestamp : ℚ → Option ℤ
  /-- `psycopg` refuses the character 0, and the index of `prices` an entry that is too long. -/
  text : String → Bool
  float_empty : float "" = none
  fromtimestamp_zero : fromtimestamp 0 = some 0

/-- What `_parse_kline` returns; the symbol is not checked. -/
structure Candle (F : Type) where
  symbol : Json
  time : ℤ
  opening : F
  high : F
  low : F
  close : F
  volume : F

def Candle.price (c : Candle F) : String → F
  | "o" => c.opening
  | "h" => c.high
  | "l" => c.low
  | "c" => c.close
  | _ => c.volume

variable (B : Builtins F)

/-- `float(v)`. -/
def toFloat : Json → Option F
  | .str s => B.float s
  | .num n => B.float (String.ofList (numberText n))
  | .bool b => B.float (if b then "1" else "0")
  | _ => none

/-- The value of a number in arithmetic; `True` is 1. -/
def toNumber : Json → Option ℚ
  | .num n => some n.value
  | .bool b => some (if b then 1 else 0)
  | _ => none

/-- `datetime.fromtimestamp(v / 1000, tz=timezone.utc)`. -/
def toInstant (v : Json) : Option ℤ := (toNumber v).bind fun t => B.fromtimestamp (t / 1000)

/-- `_parse_kline`. -/
def parseKline (raw : Json) : Option (Candle F) := do
  let symbol ← raw.get? "s"
  let time ← (raw.get? "t").bind (toInstant B)
  let opening ← (raw.get? "o").bind (toFloat B)
  let high ← (raw.get? "h").bind (toFloat B)
  let low ← (raw.get? "l").bind (toFloat B)
  let close ← (raw.get? "c").bind (toFloat B)
  let volume ← (raw.get? "v").bind (toFloat B)
  some { symbol, time, opening, high, low, close, volume }

/-- The candle of an entry, if nothing raises. -/
def readEntry (e : KlineEntry) : Option (Candle F) := (loads e.kline).bind (parseKline B)

/-- Whether `insert_price` takes a candle. The symbol of a published kline is a text, and what the
database makes of other symbols is left out. -/
def takes (c : Candle F) : Bool :=
  match c.symbol with
  | .str s => B.text s
  | _ => false

/-- The candle of an entry, if neither reading nor storing it raises. -/
def handleEntry (e : KlineEntry) : Option (Candle F) := (readEntry B e).filter (takes B)

/-- One life of the service over the entries in the stream: the candles it handles, and whether an
exception ends it. -/
def life : List KlineEntry → List (Candle F) × Bool
  | [] => ([], false)
  | e :: es =>
    match handleEntry B e with
    | none => ([], true)
    | some candle => (candle :: (life es).1, (life es).2)

theorem readEntry_entry (k : Kline) :
    readEntry B k.entry = (do
      let time ← B.fromtimestamp (k.openTime / 1000)
      let opening ← B.float k.opening
      let high ← B.float k.high
      let low ← B.float k.low
      let close ← B.float k.close
      let volume ← B.float k.volume
      some { symbol := .str k.symbol, time, opening, high, low, close, volume }) := by
  unfold readEntry Kline.entry
  rw [loads_marshal, Option.bind_some]
  unfold parseKline Kline.json
  have ht : toInstant B (.num (.ofInt k.openTime)) = B.fromtimestamp (k.openTime / 1000) := by
    show B.fromtimestamp ((JsonNumber.ofInt k.openTime).value / 1000) = _
    rw [JsonNumber.value_ofInt]
  simp only [get?, List.reverse_cons, List.reverse_nil, List.nil_append, List.cons_append]
  simp [List.lookup_cons, ht, toFloat]

theorem readEntry_entry_eq_some {k : Kline} {c : Candle F} :
    readEntry B k.entry = some c ↔ c.symbol = .str k.symbol ∧
      B.fromtimestamp (k.openTime / 1000) = some c.time ∧
      ∀ f ∈ Kline.priceFields, B.float (k.price f) = some (c.price f) := by
  rw [readEntry_entry]
  simp only [Option.bind_eq_bind, Option.bind_eq_some_iff, Kline.forall_priceFields, Kline.price,
    Candle.price]
  constructor
  · rintro ⟨time, ht, opening, ho, high, hh, low, hl, close, hc, volume, hv, h⟩
    obtain rfl := Option.some.inj h
    exact ⟨rfl, ht, ho, hh, hl, hc, hv⟩
  · rintro ⟨hs, ht, ho, hh, hl, hc, hv⟩
    exact ⟨_, ht, _, ho, _, hh, _, hl, _, hc, _, hv, by rw [← hs]; rfl⟩

/-- The entry of a kline is handled if it can be read and its symbol can be stored. -/
theorem handleEntry_entry_eq_some {k : Kline} {c : Candle F} :
    handleEntry B k.entry = some c ↔ readEntry B k.entry = some c ∧ B.text k.symbol = true := by
  unfold handleEntry
  rw [Option.filter_eq_some_iff]
  refine and_congr_right fun hread => ?_
  obtain ⟨hsymbol, -⟩ := (readEntry_entry_eq_some B).mp hread
  unfold takes
  rw [hsymbol]

theorem life_raised_iff (es : List KlineEntry) :
    (life B es).2 = true ↔ ∃ e ∈ es, handleEntry B e = none := by
  induction es with
  | nil => simp [life]
  | cons e es ih =>
    unfold life
    cases hread : handleEntry B e with
    | none => simp [hread]
    | some candle => simp [hread, ih]

end PortfolioEngine.Features
