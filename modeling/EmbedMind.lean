import EmbedMind.Storage.OrphanWal
import EmbedMind.Storage.Refusal
import EmbedMind.Storage.Reported
import EmbedMind.Storage.Session
import EmbedMind.Storage.BtreeEnds
import EmbedMind.Storage.BtreeMap
import EmbedMind.Storage.WalPrefix
import EmbedMind.Index.DictMap
import EmbedMind.Index.DictReads
import EmbedMind.Index.OverflowChains
import EmbedMind.Index.FtsRuns
import EmbedMind.Index.FtsSearch
import EmbedMind.Index.GraphCodecs
import EmbedMind.Index.GraphRuns
import EmbedMind.Index.SkipLookup
import EmbedMind.Index.BmwSearch
import EmbedMind.Index.HnswCodecs
import EmbedMind.Index.HnswReach
import EmbedMind.Index.FilterMetaDecide
import EmbedMind.Filter
import EmbedMind.Index.Bm25
import EmbedMind.Store.Retry
import EmbedMind.Store.FilterMetaInvariant
import EmbedMind.Store.NearDuplicates
import EmbedMind.Embed
import EmbedMind.RecordProof
import EmbedMind.RecallRecency
import EmbedMind.Counters
