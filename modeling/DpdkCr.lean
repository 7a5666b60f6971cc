import DpdkCr.Math.InternetChecksum
import DpdkCr.Packet.Reply
import DpdkCr.App.Startup
import DpdkCr.Port.Conservation
import DpdkCr.App.MainLoop
import DpdkCr.Tap.Ownership
import DpdkCr.Lcore.Foreach
import DpdkCr.Packet.Lengths
import DpdkCr.Netlink.Requests
import DpdkCr.Args.Grammar
import DpdkCr.Units.Time
import DpdkCr.App.Counters
import DpdkCr.Mbuf.Copy
import DpdkCr.Port.HandOver
import DpdkCr.Ring.Count
import DpdkCr.Args.Terminator
import DpdkCr.Memcpy.Copies
import DpdkCr.Mbuf.Runs
import DpdkCr.Mbuf.Threads
import DpdkCr.Mbuf.Bulk
import DpdkCr.LoadBalancer.Flows
import DpdkCr.LoadBalancer.Wiring
import DpdkCr.LoadBalancer.Rings
