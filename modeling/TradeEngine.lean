import TradeEngine.Ledger.Theorems
import TradeEngine.Ledger.Lemmas.Keys
import TradeEngine.Oms.Theorems
import TradeEngine.Store.Theorems
import TradeEngine.Oms.StopTheorems
import TradeEngine.Oms.OptionTheorems
import TradeEngine.Oms.EmulationTheorems
import TradeEngine.Margin.Theorems
import TradeEngine.Risk.Theorems
import TradeEngine.Risk.OptionTheorems
import TradeEngine.Risk.DecimalTheorems
import TradeEngine.Sim.Theorems
import TradeEngine.Sim.PriceTheorems
import TradeEngine.Sim.Session
import TradeEngine.Sim.Lemmas.Filling
import TradeEngine.Sim.Lemmas.Bars
import TradeEngine.Sim.Lemmas.Snapshots
import TradeEngine.Sim.Lemmas.SnapshotCalls
import TradeEngine.Tos.Theorems
import TradeEngine.Ledger.JsonTheorems
import TradeEngine.Money.Theorems
import TradeEngine.Tos.CoverTheorems
import TradeEngine.Calendar.OrderTheorems
import TradeEngine.Mirror.Theorems
import TradeEngine.Options.OccTheorems
import TradeEngine.Ledger.ShareTheorems
import TradeEngine.Ledger.TextTheorems
import TradeEngine.Sim.SymbolTheorems
import TradeEngine.Ledger.KeyTheorems
import TradeEngine.Oms.QuantityTheorems
import TradeEngine.Jobs.OwnerTheorems
import TradeEngine.Daily.Theorems
import TradeEngine.Tos.SessionTheorems
