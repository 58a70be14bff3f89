import CheezyCore.XrayMux.Teardown
import CheezyCore.XrayMux.Isolation
import CheezyCore.XrayMux.Discipline
import CheezyCore.XrayMux.Integrity
import CheezyCore.XrayMux.DialBudget
import CheezyCore.XrayMux.Independence
import CheezyCore.XrayMux.Waiters
import CheezyCore.FakeIP.Mapping
import CheezyCore.Fragment.Integrity
import CheezyCore.Rules.Tunnel
import CheezyCore.AntiLag.Ownership
import CheezyCore.AntiLag.Datagrams
import CheezyCore.Sudoku.RecordDelivery
import CheezyCore.Sudoku.PackedRoundTrip
import CheezyCore.OpenVPN.WriteGate
import CheezyCore.OpenVPN.DataDelivery
import CheezyCore.OpenVPN.ControlDelivery
import CheezyCore.OpenVPN.KeyEpochs
import CheezyCore.Config.GroupOrder
import CheezyCore.Hysteria.Reassembly
import CheezyCore.Tuic.Codec
import CheezyCore.Sniffer.SniffTLS
import CheezyCore.Sniffer.CryptoStream
import CheezyCore.AnyTls.WriteConn
import CheezyCore.AnyTls.StreamsClosed
import CheezyCore.Sudoku.MuxCoalescing
import CheezyCore.Sudoku.MuxShutdown
import CheezyCore.Mkcp.Delivery
import CheezyCore.XHttp.ReuseSafety
import CheezyCore.OutboundGroup.Select
import CheezyCore.OutboundGroup.ParallelDial
import CheezyCore.OutboundGroup.Sticky
import CheezyCore.Mekya.Bundle
import CheezyCore.Provider.PowerSave
import CheezyCore.Dns.Resolver
import CheezyCore.Vless.XorConn
import CheezyCore.AntiLag.Stalls
import CheezyCore.AntiLag.Change
import CheezyCore.AntiLag.Region
import CheezyCore.AntiLag.HistoryKeys
import CheezyCore.OpenVPN.Acks
