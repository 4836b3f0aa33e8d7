import PortfolioEngine.Lib.GoJson
import PortfolioEngine.Lib.JsonText

/-!
# Publishing klines

The types of `ingestion/types.go`, the entries that `backfillHistorical` makes of the rows of a
REST response and those that `main` makes of the messages of the WebSocket. Both go on after a
decoding error with what the fields hold then.
-/

namespace PortfolioEngine.Ingestion

open GoJson Json

structure Kline where
  openTime : ℤ := 0
  closeTime : ℤ := 0
  symbol : String := ""
  interval : String := ""
  firstTradeID : ℤ := 0
  lastTradeID : ℤ := 0
  opening : String := ""
  close : String := ""
  high : String := ""
  low : String := ""
  volume : String := ""
  numberOfTrades : ℤ := 0
  isClosed : Bool := false
  quoteAssetVolume : String := ""
  takerBuyBaseAssetVolume : String := ""
  takerBuyQuoteAssetVolume : String := ""
  ignore : String := ""
  deriving DecidableEq

/-- The names of the fields in JSON. -/
def Kline.fields : List String :=
  ["t", "T", "s", "i", "f", "L", "o", "c", "h", "l", "v", "n", "x", "q", "V", "Q", "B"]

def Kline.set (f : String) (k : Kline) (v : Json) : Kline :=
  match f with
  | "t" => { k with openTime := unmarshal int64? k.openTime v }
  | "T" => { k with closeTime := unmarshal int64? k.closeTime v }
  | "s" => { k with symbol := unmarshal string? k.symbol v }
  | "i" => { k with interval := unmarshal string? k.interval v }
  | "f" => { k with firstTradeID := unmarshal int64? k.firstTradeID v }
  | "L" => { k with lastTradeID := unmarshal int64? k.lastTradeID v }
  | "o" => { k with opening := unmarshal string? k.opening v }
  | "c" => { k with close := unmarshal string? k.close v }
  | "h" => { k with high := unmarshal string? k.high v }
  | "l" => { k with low := unmarshal string? k.low v }
  | "v" => { k with volume := unmarshal string? k.volume v }
  | "n" => { k with numberOfTrades := unmarshal int64? k.numberOfTrades v }
  | "x" => { k with isClosed := unmarshal bool? k.isClosed v }
  | "q" => { k with quoteAssetVolume := unmarshal string? k.quoteAssetVolume v }
  | "V" => { k with takerBuyBaseAssetVolume := unmarshal string? k.takerBuyBaseAssetVolume v }
  | "Q" => { k with takerBuyQuoteAssetVolume := unmarshal string? k.takerBuyQuoteAssetVolume v }
  | "B" => { k with ignore := unmarshal string? k.ignore v }
  | _ => k

/-- The fields that hold a price or a volume. -/
def Kline.priceFields : List String := ["o", "h", "l", "c", "v"]

theorem Kline.forall_priceFields {P : String → Prop} :
    (∀ f ∈ Kline.priceFields, P f) ↔ P "o" ∧ P "h" ∧ P "l" ∧ P "c" ∧ P "v" := by
  simp [Kline.priceFields]

def Kline.price (k : Kline) : String → String
  | "o" => k.opening
  | "h" => k.high
  | "l" => k.low
  | "c" => k.close
  | _ => k.volume

structure KlineEvent where
  eventType : String := ""
  eventTime : ℤ := 0
  symbol : String := ""
  k : Kline := {}

def KlineEvent.fields : List String := ["e", "E", "s", "k"]

def KlineEvent.set (f : String) (event : KlineEvent) (v : Json) : KlineEvent :=
  match f with
  | "e" => { event with eventType := unmarshal string? event.eventType v }
  | "E" => { event with eventTime := unmarshal int64? event.eventTime v }
  | "s" => { event with symbol := unmarshal string? event.symbol v }
  | "k" => { event with k := unmarshalStruct Kline.fields Kline.set event.k v }
  | _ => event

structure WSFrame where
  stream : String := ""
  data : KlineEvent := {}

def WSFrame.fields : List String := ["stream", "data"]

def WSFrame.set (f : String) (frame : WSFrame) (v : Json) : WSFrame :=
  match f with
  | "stream" => { frame with stream := unmarshal string? frame.stream v }
  | "data" => { frame with data := unmarshalStruct KlineEvent.fields KlineEvent.set frame.data v }
  | _ => frame

/-- The object that `json.Marshal` writes. -/
def Kline.json (k : Kline) : Json :=
  .obj [("t", .num (.ofInt k.openTime)), ("T", .num (.ofInt k.closeTime)), ("s", .str k.symbol),
    ("i", .str k.interval), ("f", .num (.ofInt k.firstTradeID)),
    ("L", .num (.ofInt k.lastTradeID)), ("o", .str k.opening), ("c", .str k.close),
    ("h", .str k.high), ("l", .str k.low), ("v", .str k.volume),
    ("n", .num (.ofInt k.numberOfTrades)), ("x", .bool k.isClosed),
    ("q", .str k.quoteAssetVolume), ("V", .str k.takerBuyBaseAssetVolume),
    ("Q", .str k.takerBuyQuoteAssetVolume), ("B", .str k.ignore)]

def Kline.marshal (k : Kline) : List Char := render escaping k.json

theorem loads_marshal (k : Kline) : loads k.marshal = some k.json := loads_render escaping k.json

/-- The values of an entry of `kline_stream`. -/
structure KlineEntry where
  symbol : String
  openTime : ℤ
  kline : List Char
  deriving DecidableEq

/-- The values of the `XADD` of both producers. -/
def Kline.entry (k : Kline) : KlineEntry := ⟨k.symbol, k.openTime, k.marshal⟩

/-! ## The producers -/

def symbols : List String := ["BTCUSDT", "ETHUSDT", "SOLUSDT"]

def interval : String := "1m"

/-- The kline of one row of the response for `symbol`; a row of less than 12 elements is left
out. -/
def rowKline (symbol : String) (row : List Json) : Option Kline :=
  if h : 12 ≤ row.length then some
    { openTime := unmarshal int64? 0 row[0]
      closeTime := unmarshal int64? 0 row[6]
      symbol := symbol
      interval := interval
      opening := unmarshal string? "" row[1]
      close := unmarshal string? "" row[4]
      high := unmarshal string? "" row[2]
      low := unmarshal string? "" row[3]
      volume := unmarshal string? "" row[5]
      numberOfTrades := unmarshal int64? 0 row[8]
      isClosed := true
      quoteAssetVolume := unmarshal string? "" row[7]
      takerBuyBaseAssetVolume := unmarshal string? "" row[9]
      takerBuyQuoteAssetVolume := unmarshal string? "" row[10]
      ignore := unmarshal string? "" row[11] }
  else none

/-- The frame after the decoding of a message, `none` if it is not JSON. -/
def unmarshalFrame (message : Option Json) : WSFrame :=
  match message with
  | none => {}
  | some v => unmarshalStruct WSFrame.fields WSFrame.set {} v

/-- The kline of a message, if it is closed. -/
def messageKline (message : Option Json) : Option Kline :=
  let k := (unmarshalFrame message).data.k
  if k.isClosed then some k else none

theorem rowKline_isSome (symbol : String) (row : List Json) :
    (rowKline symbol row).isSome = true ↔ 12 ≤ row.length := by
  unfold rowKline
  split_ifs with h <;> simp [h]

end PortfolioEngine.Ingestion
