import MahjongAI.CardCounts
import MahjongAI.DrawTiles
import MahjongAI.Deal
import MahjongAI.OneMove
import MahjongAI.KnownTiles
import MahjongAI.KongChoice
import MahjongAI.EatChoice
import MahjongAI.PonChoice
import MahjongAI.PacketStream
import MahjongAI.Malformed
import MahjongAI.EventArgs
import MahjongAI.Acks
import MahjongAI.Client
import MahjongAI.SocketQueue
import MahjongAI.QueryString
import MahjongAI.MeldRecords
import MahjongAI.Backoff
import MahjongAI.Partitions
import MahjongAI.EndpointRuns
import MahjongAI.NamespaceRuns
import MahjongAI.Session
import MahjongAI.LawfulMelds
import MahjongAI.KeepAlive
