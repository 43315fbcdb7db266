import Harbormaster.Inspector.Text

/-! # The canonical record and its vocabulary

`mapping.canonical` of the inspector: the one schema every source column is
mapped onto, the names each field is known by, and the fields a domain requires.
-/

namespace Harbormaster.Inspector

/-! ## Domains -/

/-- What kind of event a record represents. -/
inductive Domain where
  | trade | position | cash | collateral | unknown
deriving DecidableEq, Repr

def Domain.text : Domain → String
  | .trade => "TRADE"
  | .position => "POSITION"
  | .cash => "CASH"
  | .collateral => "COLLATERAL"
  | .unknown => "UNKNOWN"

def domains : List Domain := [.trade, .position, .cash, .collateral, .unknown]

/-- `Domain(text)`; any other text is a `ValueError`. -/
def Domain.ofText? (text : String) : Option Domain := domains.find? fun domain => domain.text = text

/-- How a field mapping was resolved. -/
inductive Tier where
  | tierAlias | tierLocal | tierLlm | tierHuman | tierUnresolved
deriving DecidableEq, Repr

/-! ## Fields -/

/-- The canonical schema, in the column order of the output. -/
def canonicalFields : List String :=
  ["arrival_id", "source_system", "client_id", "account_id", "account_name", "trade_id",
    "instrument_id", "instrument_type", "trade_date", "value_date", "quantity", "trade_price",
    "settlement_price", "gross_amount", "net_amount", "market_value", "currency", "side",
    "domain"]

/-- The fields the mapper may assign from source columns. The others are set by
the inspector itself. -/
def mappableFields : List String :=
  ["source_system", "account_id", "account_name", "trade_id", "instrument_id", "instrument_type",
    "trade_date", "quantity", "trade_price", "settlement_price", "gross_amount", "net_amount",
    "market_value", "currency", "side"]

/-- Economically material fields carry more weight. -/
def fieldWeight (field : String) : ℚ :=
  if ["quantity", "trade_price", "settlement_price", "gross_amount", "net_amount",
      "market_value"].contains field then 3
  else if ["account_id", "instrument_id", "trade_id", "trade_date", "currency"].contains field then 2
  else 1

/-- The fields a domain actually requires, in order. -/
def requiredByDomain : Domain → List String
  | .trade => ["account_id", "currency", "instrument_id", "net_amount", "quantity", "trade_date",
      "trade_price"]
  | .position => ["account_id", "instrument_id", "market_value", "quantity", "settlement_price"]
  | .cash => ["account_id", "currency", "net_amount"]
  | .collateral => ["account_id", "currency", "instrument_id", "market_value"]
  | .unknown => []

/-! ## Names -/

/-- The names each field is known by. -/
def fieldAliases : List (String × List String) := [
  ("source_system", ["source", "sourcesystem", "venue", "exchange", "market", "clearinghouse",
    "mic"]),
  ("account_id", ["accountid", "account", "acctno", "acctnum", "accountnumber", "acctid",
    "accountno", "clientaccount", "custodyaccount", "safekeepingaccount", "portfolioid",
    "portfolio", "book", "bookid", "subaccount", "omnibusaccount", "clearingaccount", "acct"]),
  ("account_name", ["accountname", "acctname", "portfolioname", "fundname", "clientname",
    "accounttitle", "safekeepingaccountname", "bookname"]),
  ("trade_id", ["tradeid", "trdid", "dealid", "executionid", "execid", "orderid",
    "transactionid", "ticket", "ticketno", "ticketnumber", "referencenumber", "refno",
    "reference", "tradereference", "confirmationid", "clordid", "tradenumber"]),
  ("instrument_id", ["instrument", "instrumentid", "symbol", "ticker", "isin", "cusip", "sedol",
    "figi", "securityid", "secid", "contractcode", "contract", "occsymbol", "productcode",
    "product", "underlying", "underlyingsymbol", "securitydescription", "description",
    "instrumentcode", "ric", "bbgticker"]),
  ("instrument_type", ["instrumenttype", "assetclass", "producttype", "sectype", "securitytype",
    "cficode", "instrumentclass", "assettype", "contracttype"]),
  ("trade_date", ["tradedate", "trddate", "dealdate", "executiondate", "transactiondate",
    "dateexecuted", "businessdate", "activitydate", "bookingdate", "asof", "asofdate", "date"]),
  ("quantity", ["qty", "quantity", "lastqty", "filledqty", "shares", "units", "contracts",
    "numberofcontracts", "faceamount", "facevalue", "nominal", "nominalamount", "lotsize",
    "position", "netposition", "positionquantity", "openquantity", "balance", "holdings",
    "tradequantity", "settlementquantity"]),
  ("trade_price", ["price", "tradeprice", "lastprice", "execprice", "executionprice",
    "fillprice", "dealprice", "avgprice", "averageprice", "executedprice", "lastpx", "avgpx",
    "pricetraded", "unitprice", "cleanprice", "grossprice"]),
  ("settlement_price", ["settleprice", "settlementprice", "closeprice", "closingprice",
    "mtmprice", "marktomarketprice", "marktomarket", "officialsettlementprice", "officialprice",
    "dccprice", "eodprice", "priorsettleprice", "previoussettlementprice", "endofdayprice",
    "valuationprice", "markprice", "settlementpx"]),
  ("gross_amount", ["grossamount", "grossamt", "grossvalue", "grossproceeds", "principal",
    "principalamount", "grosscash", "grossconsideration", "consideration"]),
  ("net_amount", ["netamount", "netamt", "netmoney", "netcash", "proceeds", "netproceeds",
    "settlementamount", "settlementvalue", "settleamt", "settlementamt", "cashamount",
    "netsettlementvalue", "totalamount", "amountdue", "amount", "netconsideration", "cashvalue",
    "movementamount", "debitcredit"]),
  ("market_value", ["marketvalue", "mktval", "mktvalue", "mv", "currentmarketvalue", "fairvalue",
    "notionalvalue", "notional", "valuation", "positionvalue", "collateralvalue",
    "marketvalueinbase", "basemarketvalue"]),
  ("currency", ["currency", "ccy", "curr", "cur", "settlementcurrency", "settleccy",
    "tradecurrency", "tradeccy", "currencycode", "isocurrency", "denomination"]),
  ("side", ["side", "buysell", "buyorsell", "direction", "action", "longshort",
    "transactiontype", "dealtype", "bs", "sidecode"])]

/-- Units and qualifiers that carry no mapping signal. -/
def noiseTokens : List String :=
  ["usd", "eur", "gbp", "jpy", "chf", "hkd", "local", "base", "reporting", "inbase", "inlocal",
    "amt", "value1", "col"]

variable (runtime : Runtime)

/-- The field a comparable form names; no form names two. -/
def aliasOf (form : String) : Option String :=
  (fieldAliases.find? fun entry =>
    form = entry.1 || form = normalizeHeader runtime entry.1 || entry.2.contains form).map Prod.fst

/-- Remove trailing currency and unit qualifiers. -/
def stripNoise (form : String) : String :=
  noiseTokens.foldl (fun out token =>
    if endsWith out token && token.toList.length + 2 < out.toList.length then
      String.ofList (out.toList.take (out.toList.length - token.toList.length))
    else out) form

/-- Tier 1 resolution: a field name, or `none`. -/
def aliasLookup (rawHeader : String) : Option String :=
  let form := normalizeHeader runtime rawHeader
  (aliasOf runtime form).or (aliasOf runtime (stripNoise form))

/-- What the dictionary answers is a field the mapper may assign. -/
theorem mappable_of_aliasLookup {header field : String}
    (h : aliasLookup runtime header = some field) : field ∈ mappableFields := by
  have hfield : ∀ form, aliasOf runtime form = some field → field ∈ mappableFields := by
    intro form hform
    obtain ⟨entry, hfind, rfl⟩ := Option.map_eq_some_iff.mp hform
    have hall : ∀ entry ∈ fieldAliases, entry.1 ∈ mappableFields := by decide
    exact hall entry (List.mem_of_find?_eq_some hfind)
  rcases Option.or_eq_some_iff.mp h with hform | ⟨_, hform⟩
  · exact hfield _ hform
  · exact hfield _ hform

end Harbormaster.Inspector
