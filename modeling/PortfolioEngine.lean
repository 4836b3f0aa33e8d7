import PortfolioEngine.Lib.ExactFloat
import PortfolioEngine.Ingestion.BackfillStatus
import PortfolioEngine.Features.KlineAgreement
import PortfolioEngine.Features.History
import PortfolioEngine.Features.LookAhead
import PortfolioEngine.Features.Redelivery
import PortfolioEngine.Features.Restart
import PortfolioEngine.Features.Cursors
import PortfolioEngine.Pipeline.System
import PortfolioEngine.Pipeline.StableLabels
import PortfolioEngine.Pipeline.Gates
import PortfolioEngine.Forecasting.Garch
import PortfolioEngine.Forecasting.Inference
import PortfolioEngine.Forecasting.Labels
import PortfolioEngine.Forecasting.Queue
import PortfolioEngine.Forecasting.RealizedVol
import PortfolioEngine.Forecasting.LabelAgreement
import PortfolioEngine.Forecasting.ForwardMinutes
import PortfolioEngine.Forecasting.FeatureValues
import PortfolioEngine.Forecasting.CompleteRows
import PortfolioEngine.Forecasting.TrainingLoop
import PortfolioEngine.Forecasting.Qlike
import PortfolioEngine.Portfolio.ProjectionRounds
import PortfolioEngine.Portfolio.WeightCap
import PortfolioEngine.Portfolio.VolOrder
import PortfolioEngine.Portfolio.SharpeGradient
import PortfolioEngine.Portfolio.SharpeAscent
import PortfolioEngine.Portfolio.Ledger
import PortfolioEngine.Portfolio.HeldPositions
import PortfolioEngine.Portfolio.PeriodReturns
import PortfolioEngine.Portfolio.Outputs
import PortfolioEngine.Portfolio.Schedule
import PortfolioEngine.Portfolio.Estimates
import PortfolioEngine.Portfolio.CovarianceBound
import PortfolioEngine.Portfolio.RunRebalance
import PortfolioEngine.Portfolio.UnusableVols
import PortfolioEngine.Portfolio.Reordering
import PortfolioEngine.Portfolio.SymbolOrder
import PortfolioEngine.Portfolio.LedgerRefinement
import PortfolioEngine.Gateway.Events
import PortfolioEngine.Gateway.RiskMetrics
import PortfolioEngine.Gateway.MaxDrawdown
import PortfolioEngine.Gateway.RealizedSharpe
import PortfolioEngine.Gateway.Connections
import PortfolioEngine.Gateway.LatestPortfolio
import PortfolioEngine.Ingestion.HttpClient
import PortfolioEngine.Forecasting.RollingMetrics
import PortfolioEngine.Lib.Scores
import PortfolioEngine.Lib.Loops
import PortfolioEngine.Pipeline.Integrity
import PortfolioEngine.Pipeline.WriteOnce
import PortfolioEngine.Forecasting.Training
import PortfolioEngine.Pipeline.Threads
import PortfolioEngine.Pipeline.Isolation
import PortfolioEngine.Features.Units
import PortfolioEngine.Pipeline.Units
import PortfolioEngine.Portfolio.Units
import PortfolioEngine.Portfolio.Wealth
import PortfolioEngine.Portfolio.Punctuality
import PortfolioEngine.Gateway.Delivery
import PortfolioEngine.Features.Reader
import PortfolioEngine.Features.CatchUp
import PortfolioEngine.Features.ReaderRefinement
import PortfolioEngine.Ingestion.Producers
import PortfolioEngine.Pipeline.Feed
import PortfolioEngine.Gateway.EquityCurve
import PortfolioEngine.Gateway.LiveViews
