import Promcore.Library.RankSummary
import Promcore.Sketch.SampleSteps
import Promcore.Sketch.AllowableError
import Promcore.Sketch.Represents
import Promcore.Sketch.Accuracy
import Promcore.Library.OrderedMerge
import Promcore.Sketch.Placing
import Promcore.Sketch.ClearReads
import Promcore.Library.RotatingLog
import Promcore.Library.Simulation
import Promcore.Window.Content
import Promcore.Metrics.ClientMetric
import Promcore.Metrics.Summary
import Promcore.Sketch.Reads
import Promcore.Metrics.Scrapes
import Promcore.Library.PrefixSums
import Promcore.Metrics.Gauge
import Promcore.Metrics.Histogram
import Promcore.Metrics.CumulativeCounts
import Promcore.Registry.Family
import Promcore.Registry.Registry
import Promcore.Library.Directory
import Promcore.Registry.Runs
import Promcore.Registry.NameMap
import Promcore.Library.Escaping
import Promcore.Library.Decimals
import Promcore.Library.Spacing
import Promcore.Text.Numbers
import Promcore.Text.Numerals
import Promcore.Text.TextSerializer
import Promcore.Library.Lines
import Promcore.Library.Sections
import Promcore.Text.Samples
import Promcore.Text.Decoding
import Promcore.Text.RoundTrip
import Promcore.Registry.LabelSets
import Promcore.Text.Help
import Promcore.Text.Series
import Promcore.Text.Exposition
import Promcore.Registry.NameTable
import Promcore.Library.RankIntervals
import Promcore.Sketch.FlushedRuns
import Promcore.Sketch.CoveredRuns
import Promcore.Window.Rotation
import Promcore.Metrics.CounterRuns
import Promcore.Metrics.Interleaving
import Promcore.Registry.LabelMap
import Promcore.Metrics.Collecting
import Promcore.Registry.Scrape
import Promcore.Text.Buckets
import Promcore.Text.Declared
import Promcore.Text.Precision
import Promcore.Text.Doubles
import Promcore.Text.Stream
import Promcore.Text.StreamSerializer
import Promcore.Text.Independence
import Promcore.Metrics.Truncation
import Promcore.Library.SymbolClasses
import Promcore.Registry.NameGrammar
import Promcore.Library.Traced
import Promcore.Sketch.Accesses
import Promcore.Sketch.AccessSteps
import Promcore.Sketch.Indexing
import Promcore.Sketch.IntRange
import Promcore.Sketch.Extremes
import Promcore.Library.CriticalSections
import Promcore.Metrics.LockedHistogram
import Promcore.Metrics.LockedSummary
import Promcore.Registry.LockedFamily
import Promcore.Registry.ConcurrentScrape
import Promcore.Registry.Histories
import Promcore.Registry.MapOrder
import Promcore.Text.ReadBack
import Promcore.Text.Nearest
import Promcore.Metrics.Retries
import Promcore.Library.LockOrder
import Promcore.Registry.Locks
import Promcore.Sketch.OrderOnly
import Promcore.Metrics.Rescaling
import Promcore.Metrics.SummaryWindow
import Promcore.Metrics.Totals
import Promcore.Metrics.FetchAdd
import Promcore.Sketch.SmallErrors
import Promcore.Metrics.Rising
import Promcore.Registry.SuccessiveScrapes
import Promcore.Text.ScrapeText
import Promcore.Text.Figures
import Promcore.Metrics.CounterThreads
import Promcore.Sketch.Memory
import Promcore.Registry.LockedRegistry
import Promcore.Text.SeriesKept
import Promcore.Metrics.CounterIntThreads
